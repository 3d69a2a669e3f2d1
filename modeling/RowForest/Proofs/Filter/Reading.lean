import RowForest.Proofs.Filter.Parameters
import RowForest.Proofs.Sql.Reader

namespace RowForest.Filter

open Sql Sql.Reader

def argument : Reader Expr := do
  if ← passes "@" then return .param (← word)
  else
    let key ← word
    expect " => @"
    return .named key (.param (← word))

def continued (operand : Reader Expr) (a : Expr) : Reader Expr := do
  match ← operation? Operation.all with
  | none => return a
  | some o =>
    let b ← operand
    expect o.closing
    return o.expr a b

def enclosed (operand : Reader Expr) (fuel : Nat) : Reader Expr := do
  if ← passes "NOT " then return .not (← operand)
  else if ← passes "SEARCH_NGRAMS(" then
    let column ← name
    let args ← following ", " argument fuel
    expect ")"
    return .call "SEARCH_NGRAMS" (.column column :: args)
  else continued operand (← operand)

def ofNames (name : String) : List String → Expr
  | [] => .column name
  | names => .path (name :: names)

def operand : Nat → Reader Expr
  | 0 => failure
  | fuel + 1 => do
    if ← passes "@" then return .param (← word)
    else if ← passes "(" then
      let e ← enclosed (operand fuel) fuel
      expect ")"
      return .paren e
    else return ofNames (← name) (← following "." name fuel)

def Delimited (cs : List Char) : Prop := ∀ c ∈ cs.head?, c = ' ' ∨ c = ')'

/-- Whether an expression is read from its text, however the text goes on. -/
def Reads (r : Reader Expr) (e : Expr) : Prop :=
  ∀ rest, Delimited rest → r (e.text.toList ++ rest) = some (e, rest)

/-- A name without the sign that hides the character after it. -/
def Readable (name : String) : Prop := '\\' ∉ name.toList

instance : DecidablePred Readable := fun name => inferInstanceAs (Decidable ('\\' ∉ name.toList))

section

variable {P : String → Prop} {p a b e : Expr} {n m k fuel : Nat} {keys : List String} {rest ds cs : List Char}
  {w first name : String} {r : Reader Expr}

theorem Delimited.apart (h : Delimited rest) : Apart rest := by
  intro c hc
  rcases h c hc with rfl | rfl <;> decide

theorem delimited_close (cs : List Char) : Delimited (")".toList ++ cs) := by
  rintro c ⟨⟩
  exact .inr rfl

theorem all_paramName (i : Nat) : (paramName i).toList.all continuesName = true := by
  have hlabel : "param_".toList.all continuesName = true := by decide
  rw [paramName, String.toList_append, List.all_append, hlabel, Bool.true_and, List.all_eq_true]
  intro c hc
  have hdigit : c.isDigit = true := Nat.isDigit_of_mem_toDigits (by decide) (by decide) (Nat.toList_repr ▸ hc)
  rw [continuesName, Char.isAlphanum, hdigit, Bool.or_true, Bool.true_or]

theorem mem_namedArgs (h : e ∈ namedArgs n keys) : ∃ key ∈ keys, ∃ i, e = .named key (.param (paramName i)) := by
  induction keys generalizing n with
  | nil => cases h
  | cons key keys ih =>
      rcases List.mem_cons.1 h with rfl | h
      · exact ⟨key, List.mem_cons_self, n, rfl⟩
      · obtain ⟨key, hkey, i, rfl⟩ := ih h
        exact ⟨key, List.mem_cons_of_mem _ hkey, i, rfl⟩

theorem length_namedArgs : (namedArgs n keys).length = keys.length := by
  induction keys generalizing n with
  | nil => rfl
  | cons key keys ih => rw [namedArgs, List.length_cons, ih, List.length_cons]

theorem argument_param (i : Nat) (hrest : Apart rest) :
    argument ((Expr.param (paramName i)).text.toList ++ rest) = some (.param (paramName i), rest) := by
  rw [argument, Expr.text, String.toList_append, List.append_assoc, passes_then,
    bind_of (word_append (all_paramName i) hrest)]
  rfl

theorem argument_named {key : String} (hkey : key ∈ searchKeys) (i : Nat) (hrest : Apart rest) :
    argument ((Expr.named key (.param (paramName i))).text.toList ++ rest) =
      some (.named key (.param (paramName i)), rest) := by
  have htext : (Expr.named key (.param (paramName i))).text.toList ++ rest =
      key.toList ++ (" => @".toList ++ ((paramName i).toList ++ rest)) := by
    simp [Expr.text]
  have hkeys : ∀ key ∈ searchKeys, ∃ c cs, key.toList = c :: cs ∧ c ≠ '@' := by simp [searchKeys]
  have hwords : ∀ key ∈ searchKeys, key.toList.all continuesName = true := by decide
  have harrow : Apart (" => @".toList ++ ((paramName i).toList ++ rest)) := apart_cons rfl
  rw [argument, htext, passes_else, bind_of (word_append (hwords key hkey) harrow),
    expect_then, bind_of (word_append (all_paramName i) hrest)]
  · rfl
  · obtain ⟨c, cs, hc, hne⟩ := hkeys key hkey
    exact not_next (c := '@') rfl (by simpa [hc] using hne)

theorem toList_text_call (function : String) (es : List Expr) :
    (Expr.call function (e :: es)).text.toList =
      (function ++ "(").toList ++
        (e.text.toList ++ (es.flatMap (fun e => ", ".toList ++ e.text.toList) ++ ")".toList)) := by
  rw [Expr.text, commaSeparated, Expr.argTexts_eq_map, String.toList_append, String.toList_append, List.map_cons,
    toList_intercalate_cons, List.flatMap_map, List.append_assoc, List.append_assoc]

theorem Generated.eq_of_word_append (h : Generated P n p m) (hw : w.toList.all continuesName = true)
    (hne : w ≠ "") (hds : Apart ds) (hrest : Delimited rest) (htext : w.toList ++ ds = p.text.toList ++ rest) :
    isPlain w = true ∧ ∀ c ∈ ds.head?, c = '.' ∨ c = ' ' ∨ c = ')' := by
  obtain ⟨c, cs, hc⟩ := List.exists_cons_of_ne_nil (mt String.toList_eq_nil_iff.1 hne)
  have hstart : continuesName c = true := List.all_eq_true.1 hw c (hc ▸ List.mem_cons_self)
  cases h with
  | column =>
      obtain ⟨hplain, rfl⟩ := Sql.Reader.eq_of_word_append hw hne hds hrest.apart htext
      exact ⟨hplain, fun c hc => .inr (hrest c hc)⟩
  | path =>
      rw [Expr.text, List.map_cons, toList_intercalate_cons, List.map_cons, List.flatMap_cons, List.append_assoc,
        List.append_assoc, List.append_assoc] at htext
      obtain ⟨hplain, rfl⟩ := Sql.Reader.eq_of_word_append hw hne hds (apart_cons rfl) htext
      exact ⟨hplain, by rintro c ⟨⟩; exact .inl rfl⟩
  | param | instant | operation | not | search =>
      -- these begin with a sign, which is no part of a word
      have hhead := congrArg List.head? htext
      simp only [Expr.text, hc, String.toList_append, List.append_assoc, List.cons_append, List.head?_cons] at hhead
      cases hhead
      exact absurd hstart (by decide)

theorem Generated.not_next_not (h : Generated P n p m) (hrest : Delimited rest) :
    ¬"NOT ".toList <+: p.text.toList ++ rest := by
  rintro ⟨ds, hds⟩
  have htext : "NOT".toList ++ ' ' :: ds = p.text.toList ++ rest := hds
  have hword := h.eq_of_word_append (by decide) (by decide) (apart_cons rfl) hrest htext
  exact absurd hword.1 (by decide)

theorem Generated.not_next_search (h : Generated P n p m) (hrest : Delimited rest) :
    ¬"SEARCH_NGRAMS(".toList <+: p.text.toList ++ rest := by
  rintro ⟨ds, hds⟩
  have htext : "SEARCH_NGRAMS".toList ++ '(' :: ds = p.text.toList ++ rest := hds
  have hword := h.eq_of_word_append (by decide) (by decide) (apart_cons rfl) hrest htext
  exact absurd (hword.2 '(' rfl) (by decide)

theorem Generated.text_ne_always (h : Generated P n p m) : p.text ≠ Expr.always.text := by
  intro htext
  have htext : "TRUE".toList ++ [] = p.text.toList ++ [] := by rw [htext, Expr.text]
  have hapart : Apart [] := nofun
  have hdelimited : Delimited [] := nofun
  have hword := h.eq_of_word_append (by decide) (by decide) hapart hdelimited htext
  exact absurd hword.1 (by decide)

theorem Generated.enclosed_operand (h : Generated P n a m) (hr : Reads r a) (hcs : Delimited cs) :
    enclosed r fuel (a.text.toList ++ cs) = continued r a cs := by
  rw [enclosed, passes_else (h.not_next_not hcs), passes_else (h.not_next_search hcs), bind_of (hr cs hcs)]

theorem enclosed_instant (hr : Reads r (.param (paramName n))) :
    enclosed r fuel ((Expr.param (paramName n)).text.toList ++ (")".toList ++ rest)) =
      some (.param (paramName n), ")".toList ++ rest) := by
  have hparam : Generated Readable n (.param (paramName n)) (n + 1) := .param n
  rw [hparam.enclosed_operand hr (delimited_close rest), continued,
    bind_of (operation?_else (by rintro ⟨⟩) Operation.all)]
  rfl

theorem enclosed_operation (o : Operation) (h : Generated P n a m) (ha : Reads r a) (hb : Reads r b) :
    enclosed r fuel ((o.expr a b).text.toList ++ (")".toList ++ rest)) = some (o.expr a b, ")".toList ++ rest) := by
  have hbetween : Delimited (o.between.toList ++ (b.text.toList ++ (o.closing.toList ++ (")".toList ++ rest)))) := by
    obtain ⟨bs, hbs⟩ := o.between_eq_cons
    rw [hbs]
    rintro c ⟨⟩
    exact .inl rfl
  have hclosing : Delimited (o.closing.toList ++ (")".toList ++ rest)) := by
    cases o <;> exact delimited_close _
  rw [Operation.text_expr, String.toList_append, String.toList_append, String.toList_append, List.append_assoc,
    List.append_assoc, List.append_assoc, h.enclosed_operand ha hbetween, continued,
    bind_of (operation?_between o.mem_all)]
  dsimp only
  rw [bind_of (hb _ hclosing), expect_then]
  rfl

theorem enclosed_not (ha : Reads r a) :
    enclosed r fuel ((Expr.not a).text.toList ++ (")".toList ++ rest)) = some (.not a, ")".toList ++ rest) := by
  rw [Expr.text, String.toList_append, List.append_assoc, enclosed, passes_then,
    bind_of (ha _ (delimited_close rest))]
  rfl

theorem enclosed_search (hname : Readable name) (hkeys : ∀ key ∈ keys, key ∈ searchKeys)
    (hfuel : keys.length + 1 ≤ fuel) :
    let search : Expr := .call "SEARCH_NGRAMS" (.column name :: .param (paramName n) :: namedArgs (n + 1) keys)
    enclosed r fuel (search.text.toList ++ rest) = some (search, rest) := by
  have hargs : ∀ e ∈ Expr.param (paramName n) :: namedArgs (n + 1) keys, ∀ rest, Apart rest →
      argument (e.text.toList ++ rest) = some (e, rest) := by
    intro e he rest hrest
    rcases List.mem_cons.1 he with rfl | he
    · exact argument_param n hrest
    · obtain ⟨key, hkey, i, rfl⟩ := mem_namedArgs he
      exact argument_named (hkeys key hkey) i hrest
  have hlength : (Expr.param (paramName n) :: namedArgs (n + 1) keys).length ≤ fuel := by
    rw [List.length_cons, length_namedArgs]
    exact hfuel
  have hcomma : ∀ cs, Apart (", ".toList ++ cs) := fun _ => apart_cons rfl
  have hfollowing := following_append hargs hcomma (delimited_close rest).apart
    (not_next (c := ',') rfl (by rintro ⟨⟩)) fuel hlength
  have hnext := apart_flatMap hcomma (delimited_close rest).apart Expr.text
    (.param (paramName n) :: namedArgs (n + 1) keys)
  have hfunction : "SEARCH_NGRAMS" ++ "(" = "SEARCH_NGRAMS(" := by decide
  intro search
  rw [toList_text_call, hfunction, Expr.text, List.append_assoc, List.append_assoc, List.append_assoc, enclosed,
    passes_else (not_next (c := 'N') rfl (by rintro ⟨⟩)), passes_then,
    bind_of (name_append hname hnext), bind_of hfollowing, expect_then]
  rfl

theorem operand_names (names : List String) (hnames : ∀ name ∈ first :: names, Readable name)
    (hrest : Delimited rest) (hfuel : names.length ≤ fuel) :
    operand (fuel + 1) ((".".intercalate ((first :: names).map nameText)).toList ++ rest) =
      some (ofNames first names, rest) := by
  rw [List.forall_mem_cons] at hnames
  have hdot : ∀ cs, Apart (".".toList ++ cs) := fun _ => apart_cons rfl
  have hend : ¬".".toList <+: rest := not_next (c := '.') rfl fun hdot => by simpa using hrest '.' hdot
  have hfollowing := following_append (fun name hname rest hrest => name_append (hnames.2 name hname) hrest) hdot
    hrest.apart hend fuel hfuel
  have hnext := apart_flatMap hdot hrest.apart nameText names
  rw [List.map_cons, toList_intercalate_cons, List.flatMap_map, List.append_assoc, operand,
    passes_else (not_next_nameText (c := '@') rfl (by decide)),
    passes_else (not_next_nameText (c := '(') rfl (by decide)), bind_of (name_append hnames.1 hnext),
    bind_of hfollowing]
  rfl

theorem reads_param (i : Nat) : Reads (operand (fuel + 1)) (.param (paramName i)) := by
  intro rest hrest
  rw [operand, Expr.text, String.toList_append, List.append_assoc, passes_then,
    bind_of (word_append (all_paramName i) hrest.apart)]
  rfl

theorem reads_paren (h : ∀ rest, enclosed (operand fuel) fuel (e.text.toList ++ (")".toList ++ rest)) =
    some (e, ")".toList ++ rest)) : Reads (operand (fuel + 1)) (.paren e) := by
  intro rest _
  have htext : (Expr.paren e).text.toList ++ rest = "(".toList ++ (e.text.toList ++ (")".toList ++ rest)) := by
    simp [Expr.text]
  rw [operand, htext, passes_else, passes_then, bind_of (h rest), expect_then]
  · rfl
  · exact not_next (c := '@') rfl (by rintro ⟨⟩)

theorem exists_reads (h : ∀ fuel, k ≤ fuel → Reads (operand (fuel + 1)) p) :
    ∃ k, ∀ fuel, k ≤ fuel → Reads (operand fuel) p := by
  refine ⟨k + 1, ?_⟩
  rintro (_ | fuel) hfuel
  · cases hfuel
  · exact h fuel (Nat.le_of_succ_le_succ hfuel)

/-- A predicate is read back from its text. -/
theorem Generated.reads (h : Generated Readable n p m) : ∃ k, ∀ fuel, k ≤ fuel → Reads (operand fuel) p := by
  induction h with
  | @column n name hname =>
      have hnames : ∀ name' ∈ [name], Readable name' := by simpa using hname
      exact exists_reads fun fuel hfuel rest hrest => operand_names [] hnames hrest hfuel
  | path n hnames => exact exists_reads fun fuel hfuel rest hrest => operand_names _ hnames hrest hfuel
  | param n => exact exists_reads (k := 0) fun fuel _ => reads_param n
  | instant n =>
      refine exists_reads (k := 1) fun fuel hfuel => reads_paren fun rest => enclosed_instant ?_
      obtain ⟨fuel, rfl⟩ := Nat.exists_eq_add_of_le' hfuel
      exact reads_param n
  | operation o ha _ iha ihb =>
      obtain ⟨i, hi⟩ := iha
      obtain ⟨j, hj⟩ := ihb
      refine exists_reads (k := max i j) fun fuel hfuel => reads_paren fun rest => ?_
      exact enclosed_operation o ha (hi fuel (le_trans (le_max_left i j) hfuel))
        (hj fuel (le_trans (le_max_right i j) hfuel))
  | not _ ih =>
      obtain ⟨k, hk⟩ := ih
      exact exists_reads fun fuel hfuel => reads_paren fun rest => enclosed_not (hk fuel hfuel)
  | search n hname hkeys =>
      exact exists_reads fun fuel hfuel => reads_paren fun rest => enclosed_search hname hkeys hfuel

theorem Readable.tokens (h : Readable name) : Readable (name ++ "_tokens") := by
  rw [Readable, String.toList_append, List.mem_append, not_or]
  exact ⟨h, by decide⟩

theorem Generated.eq_of_text_eq {n' m' : Nat} (h : Generated Readable n a m) (h' : Generated Readable n' b m')
    (htext : a.text = b.text) : a = b := by
  obtain ⟨k, hk⟩ := h.reads
  obtain ⟨k', hk'⟩ := h'.reads
  have hread := hk (max k k') (le_max_left k k') [] nofun
  rw [htext, hk' (max k k') (le_max_right k k') [] nofun] at hread
  cases hread
  rfl

/-- Predicates with one text are one predicate, whatever their names are but for backslashes: words that
are reserved, signs, blanks, backquotes and nothing at all. -/
theorem predicate_eq_of_text_eq {filter filter' : Filter} {options options' : Options}
    {bound bound' : BoundPredicate} (h : predicate filter options = .ok bound)
    (h' : predicate filter' options' = .ok bound') (hnames : ∀ checked ∈ filter, checked.root.Names Readable)
    (hnames' : ∀ checked ∈ filter', checked.root.Names Readable)
    (htext : bound.predicate.text = bound'.predicate.text) : bound.predicate = bound'.predicate := by
  have hform : ∀ {filter : Filter} {options : Options} {bound : BoundPredicate},
      predicate filter options = .ok bound → (∀ checked ∈ filter, checked.root.Names Readable) →
      bound.predicate = .always ∨ ∃ m, Generated Readable 0 bound.predicate m := by
    intro filter options bound h hnames
    cases filter with
    | none =>
        cases h
        exact .inl rfl
    | some checked => exact .inr (predicate_generated h (hnames checked rfl) fun _ => Readable.tokens)
  obtain hp | ⟨m, hp⟩ := hform h hnames <;> obtain hq | ⟨m', hq⟩ := hform h' hnames'
  · rw [hp, hq]
  · exact absurd (by rw [← htext, hp]) hq.text_ne_always
  · exact absurd (by rw [htext, hq]) hp.text_ne_always
  · exact hp.eq_of_text_eq hq htext

end

namespace Hostile

def draft (i : Int64) (s : String) : Draft :=
  let column (name : String) : Draft := .ident name .int64
  let compared (name : String) : Draft := .call "=" [column name, .const (.int64 i)]
  let selected : Draft := .call "=" [.select (column "SEARCH_NGRAMS") "" .string, .const (.string s)]
  .call "OR" [.call "NOT" [compared "Not"],
    .call "AND" [compared "@param_0", .call "OR" [compared ") OR (TRUE", selected]]]

end Hostile

theorem predicate_eq_of_text_eq_hostile : ∃ bound bound',
    predicate (Hostile.draft 1 "a").build ⟨false, none⟩ = .ok bound ∧
      predicate (Hostile.draft 2 "`").build ⟨true, none⟩ = .ok bound' ∧
      bound.predicate.text = bound'.predicate.text ∧ bound.predicate = bound'.predicate := by
  have hnames : ∀ checked ∈ (Hostile.draft 1 "a").build, checked.root.Names Readable := by
    rintro _ ⟨⟩
    decide
  have hnames' : ∀ checked ∈ (Hostile.draft 2 "`").build, checked.root.Names Readable := by
    rintro _ ⟨⟩
    decide
  obtain ⟨bound, h⟩ : ∃ bound, predicate (Hostile.draft 1 "a").build ⟨false, none⟩ = .ok bound := ⟨_, rfl⟩
  obtain ⟨bound', h'⟩ : ∃ bound, predicate (Hostile.draft 2 "`").build ⟨true, none⟩ = .ok bound := ⟨_, rfl⟩
  have htext : bound.predicate.text = bound'.predicate.text := by
    cases h
    cases h'
    rfl
  exact ⟨bound, bound', h, h', htext, predicate_eq_of_text_eq h h' hnames hnames' htext⟩

end RowForest.Filter
