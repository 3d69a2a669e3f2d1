import RowForest.Proofs.Sql.Operation

namespace RowForest.Sql

abbrev Reader := StateT (List Char) Option

namespace Reader

def passes (piece : String) : Reader Bool := fun cs =>
  if piece.toList <+: cs then some (true, cs.drop piece.toList.length) else some (false, cs)

def expect (piece : String) : Reader Unit := do
  if ← passes piece then return () else failure

def word : Reader String := fun cs =>
  some (.ofList (cs.takeWhile continuesName), cs.dropWhile continuesName)

def quoted : List Char → Option (List Char × List Char)
  | [] => none
  | '\\' :: c :: cs => (quoted cs).map (Prod.map (c :: ·) id)
  | c :: cs => if c = backquote then some ([], cs) else (quoted cs).map (Prod.map (c :: ·) id)

def name : Reader String := do
  if ← passes (.singleton backquote) then return .ofList (← quoted)
  else word

def following {α : Type} (separator : String) (item : Reader α) : Nat → Reader (List α)
  | 0 => return []
  | fuel + 1 => do
    if ← passes separator then return (← item) :: (← following separator item fuel)
    else return []

def operation? : List Operation → Reader (Option Operation)
  | [] => return none
  | o :: os => do
    if ← passes o.between then return some o
    else operation? os

def Apart (cs : List Char) : Prop := ∀ c ∈ cs.head?, continuesName c = false

section

variable {α β : Type} {q r : Reader α} {f : α → Reader β} {piece w s : String}
  {cs ds rest : List Char} {a : α}

theorem bind_of (h : r cs = some (a, ds)) : (r >>= f) cs = f a ds := by
  have hbind : (r >>= f) cs = (r cs).bind fun p => f p.1 p.2 := rfl
  rw [hbind, h, Option.bind_some]

theorem passes_then : (do if ← passes piece then q else r) (piece.toList ++ cs) = q cs := by
  have hpasses : passes piece (piece.toList ++ cs) = some (true, cs) := by
    rw [passes, if_pos (List.prefix_append _ _), List.drop_left]
  rw [bind_of hpasses, if_pos rfl]

theorem passes_else (h : ¬piece.toList <+: cs) : (do if ← passes piece then q else r) cs = r cs := by
  have hpasses : passes piece cs = some (false, cs) := by rw [passes, if_neg h]
  rw [bind_of hpasses, if_neg Bool.false_ne_true]

theorem not_next {c : Char} (hpiece : piece.toList.head? = some c) (hcs : cs.head? ≠ some c) :
    ¬piece.toList <+: cs := by
  rintro ⟨ds, rfl⟩
  exact hcs (by rw [List.head?_append, hpiece, Option.some_or])

theorem expect_then {f : Unit → Reader β} : (expect piece >>= f) (piece.toList ++ cs) = f () cs :=
  bind_of passes_then

theorem apart_cons {c : Char} (hc : continuesName c = false) : Apart (c :: cs) := by
  rintro _ ⟨⟩
  exact hc

theorem word_append (hw : w.toList.all continuesName = true) (hrest : Apart rest) :
    word (w.toList ++ rest) = some (w, rest) := by
  have hcut : rest.takeWhile continuesName = [] ∧ rest.dropWhile continuesName = rest := by
    cases rest with
    | nil => exact ⟨rfl, rfl⟩
    | cons c cs =>
        have hc : ¬continuesName c = true := by simp [hrest c rfl]
        exact ⟨List.takeWhile_cons_of_neg hc, List.dropWhile_cons_of_neg hc⟩
  rw [List.all_eq_true] at hw
  rw [word, List.takeWhile_append_of_pos hw, List.dropWhile_append_of_pos hw, hcut.1, hcut.2,
    List.append_nil, String.ofList_toList]

theorem quoted_escapeBackquotes (h : '\\' ∉ cs) :
    quoted (escapeBackquotes cs ++ backquote :: rest) = some (cs, rest) := by
  induction cs with
  | nil => simp [escapeBackquotes, quoted, backquote]
  | cons c cs ih =>
      rw [List.mem_cons, not_or] at h
      by_cases hc : c = backquote
      · rw [escapeBackquotes, if_pos hc, List.cons_append, List.cons_append, quoted, ih h.2]
        rfl
      · rw [escapeBackquotes, if_neg hc, List.cons_append, quoted, if_neg hc, ih h.2]
        · rfl
        · rintro _ _ rfl
          exact absurd rfl h.1

theorem isPlain_iff : isPlain s = true ↔ ∃ c cs, s.toList = c :: cs ∧ startsName c = true ∧
    cs.all continuesName = true ∧ isReserved s = false := by
  rw [isPlain]
  cases s.toList with
  | nil => simp
  | cons c cs => simp [and_assoc]

theorem continuesName_of_startsName {c : Char} (h : startsName c = true) : continuesName c = true := by
  rw [startsName, Bool.or_eq_true] at h
  rw [continuesName, Bool.or_eq_true, Char.isAlphanum, Bool.or_eq_true]
  exact h.imp_left .inl

theorem continuesName_of_isPlain (h : isPlain s = true) : s.toList.all continuesName = true := by
  obtain ⟨c, cs, hs, hc, hcs, -⟩ := isPlain_iff.1 h
  rw [hs, List.all_cons, continuesName_of_startsName hc, hcs, Bool.and_self]

theorem not_next_quote (hplain : isPlain s = true) (cs : List Char) :
    ¬(String.singleton backquote).toList <+: s.toList ++ cs := by
  obtain ⟨c, ds, hs, hc, -⟩ := isPlain_iff.1 hplain
  refine not_next (c := backquote) (by simp) ?_
  rw [hs]
  rintro ⟨⟩
  exact absurd hc (by decide)

/-- A name is read back from its text, whatever it is made of but a backslash. -/
theorem name_append (hname : '\\' ∉ s.toList) (hrest : Apart rest) :
    name ((nameText s).toList ++ rest) = some (s, rest) := by
  unfold name nameText
  split_ifs with hplain
  · rw [passes_else (not_next_quote hplain rest)]
    exact word_append (continuesName_of_isPlain hplain) hrest
  · have htext : backquote :: escapeBackquotes s.toList ++ [backquote] ++ rest =
        (String.singleton backquote).toList ++ (escapeBackquotes s.toList ++ backquote :: rest) := by simp
    rw [String.toList_ofList, htext, passes_then, bind_of (quoted_escapeBackquotes hname),
      String.ofList_toList]
    rfl

theorem not_next_nameText {c : Char} (hpiece : piece.toList.head? = some c)
    (hc : ¬(c = backquote ∨ continuesName c = true)) : ¬piece.toList <+: (nameText s).toList ++ cs := by
  refine not_next hpiece fun hhead => hc ?_
  unfold nameText at hhead
  split_ifs at hhead with hplain
  · obtain ⟨d, ds, hs, hd, -⟩ := isPlain_iff.1 hplain
    rw [hs] at hhead
    cases hhead
    exact .inr (continuesName_of_startsName hd)
  · rw [String.toList_ofList] at hhead
    cases hhead
    exact .inl rfl

theorem eq_of_word_append (hw : w.toList.all continuesName = true) (hne : w ≠ "") (hds : Apart ds)
    (hrest : Apart rest) (h : w.toList ++ ds = (nameText s).toList ++ rest) : isPlain w = true ∧ ds = rest := by
  unfold nameText at h
  split_ifs at h with hplain
  · have hread := word_append hw hds
    rw [h, word_append (continuesName_of_isPlain hplain) hrest] at hread
    cases hread
    exact ⟨hplain, rfl⟩
  · obtain ⟨c, cs, hc⟩ := List.exists_cons_of_ne_nil (mt String.toList_eq_nil_iff.1 hne)
    rw [hc, String.toList_ofList] at h
    obtain rfl : c = backquote := (List.cons.inj h).1
    exact absurd (List.all_eq_true.1 hw backquote (hc ▸ List.mem_cons_self)) (by decide)

theorem toList_intercalate_cons (s : String) (ss : List String) :
    (piece.intercalate (s :: ss)).toList = s.toList ++ ss.flatMap fun s => piece.toList ++ s.toList := by
  induction ss generalizing s with
  | nil => simp
  | cons t ss ih =>
      rw [String.intercalate_cons_cons, String.toList_append, String.toList_append, ih, List.flatMap_cons]
      simp only [List.append_assoc]

theorem apart_flatMap {separator : String} (hseparator : ∀ cs, Apart (separator.toList ++ cs)) (hrest : Apart rest)
    (text : α → String) (xs : List α) :
    Apart (xs.flatMap (fun x => separator.toList ++ (text x).toList) ++ rest) := by
  cases xs with
  | nil => exact hrest
  | cons x xs =>
      rw [List.flatMap_cons, List.append_assoc, List.append_assoc]
      exact hseparator _

theorem following_append {separator : String} {item : Reader α} {text : α → String} {xs : List α}
    (hitem : ∀ x ∈ xs, ∀ rest, Apart rest → item ((text x).toList ++ rest) = some (x, rest))
    (hseparator : ∀ cs, Apart (separator.toList ++ cs)) (hrest : Apart rest) (hend : ¬separator.toList <+: rest) :
    ∀ fuel, xs.length ≤ fuel → following separator item fuel
      (xs.flatMap (fun x => separator.toList ++ (text x).toList) ++ rest) = some (xs, rest) := by
  induction xs with
  | nil =>
      rintro (_ | fuel) -
      · rfl
      · exact passes_else hend
  | cons x xs ih =>
      rintro (_ | fuel) hfuel
      · cases hfuel
      · rw [List.forall_mem_cons] at hitem
        have hnext := apart_flatMap hseparator hrest text xs
        rw [List.flatMap_cons, List.append_assoc, List.append_assoc, following, passes_then,
          bind_of (hitem.1 _ hnext), bind_of (ih hitem.2 fuel (Nat.le_of_succ_le_succ hfuel))]
        rfl

theorem operation?_between {o : Operation} {os : List Operation} (h : o ∈ os) :
    operation? os (o.between.toList ++ cs) = some (some o, cs) := by
  induction os with
  | nil => cases h
  | cons o' os ih =>
      by_cases ho : o'.between.toList <+: o.between.toList ++ cs
      · obtain rfl := Operation.eq_of_between_prefix ho
        rw [operation?, passes_then]
        rfl
      · rw [operation?, passes_else ho]
        refine ih ((List.mem_cons.1 h).resolve_left ?_)
        rintro rfl
        exact ho (List.prefix_append _ _)

theorem operation?_else (hcs : cs.head? ≠ some ' ') (os : List Operation) : operation? os cs = some (none, cs) := by
  induction os with
  | nil => rfl
  | cons o os ih =>
      rw [operation?, passes_else]
      · exact ih
      · obtain ⟨bs, hbs⟩ := o.between_eq_cons
        exact not_next (by rw [hbs]; rfl) hcs

end

end Reader

end RowForest.Sql
