import RowForest.Proofs.Filter.Predicate
import RowForest.Proofs.Sql.Operation

namespace RowForest.Filter

def namedArgs : Nat → List String → List Sql.Expr
  | _, [] => []
  | n, key :: keys => .named key (.param (paramName n)) :: namedArgs (n + 1) keys

def searchKeys : List String := ["language_tag", "min_ngrams", "min_ngrams_percent"]

/-- The predicates that filters can have. Their names have the property `P`, and their parameters
are numbered from `n` up to `m` in the order in which they are bound. -/
inductive Generated (P : String → Prop) : Nat → Sql.Expr → Nat → Prop
  | column (n : Nat) {name : String} (h : P name) : Generated P n (.column name) n
  | path (n : Nat) {first second : String} {rest : List String}
      (h : ∀ name ∈ first :: second :: rest, P name) : Generated P n (.path (first :: second :: rest)) n
  | param (n : Nat) : Generated P n (.param (paramName n)) (n + 1)
  | instant (n : Nat) : Generated P n (.paren (.param (paramName n))) (n + 1)
  | operation {n m k : Nat} {a b : Sql.Expr} (o : Sql.Operation) (ha : Generated P n a m)
      (hb : Generated P m b k) : Generated P n (.paren (o.expr a b)) k
  | not {n m : Nat} {a : Sql.Expr} (ha : Generated P n a m) : Generated P n (.paren (.not a)) m
  | search (n : Nat) {name : String} {keys : List String} (h : P name) (hkeys : ∀ key ∈ keys, key ∈ searchKeys) :
      Generated P n (.paren (.call "SEARCH_NGRAMS"
        (.column name :: .param (paramName n) :: namedArgs (n + 1) keys))) (n + 1 + keys.length)

def isGiven (isSet : Constant → Bool) : Node → Bool
  | .const _ c => isSet c
  | _ => false

def Node.name? : Node → Option String
  | .ident _ name => some name
  | .select _ _ field => some field
  | .const _ _ | .call _ _ _ => none

def Node.Names (P : String → Prop) (e : Node) : Prop := ∀ n ∈ e.nodes, ∀ name ∈ n.name?, P name

instance (P : String → Prop) [DecidablePred P] (e : Node) : Decidable (e.Names P) :=
  inferInstanceAs (Decidable (∀ n ∈ e.nodes, ∀ name ∈ n.name?, P name))

section

variable {P : String → Prop} {cx : Context} {e l r : Node} {args : List Node} {a p : Sql.Expr}
  {vs ws : List Value} {function name field : String} {id : Int} {n m : Nat}

theorem Node.Names.of_arg (h : (Node.call id function args).Names P) (he : e ∈ args) : e.Names P :=
  fun n hn => h n (nodes_subset_of_arg he hn)

theorem namedArgs_append (keys keys' : List String) :
    namedArgs n (keys ++ keys') = namedArgs n keys ++ namedArgs (n + keys.length) keys' := by
  induction keys generalizing n with
  | nil => rfl
  | cons key keys ih =>
      rw [List.cons_append, namedArgs, ih, namedArgs, List.cons_append, List.length_cons, Nat.add_right_comm,
        ← Nat.add_assoc]

theorem param_generated (vs : List Value) (v : Value) :
    Generated P vs.length (.param (paramName vs.length)) (vs ++ [v]).length := by
  rw [List.length_append]
  exact .param vs.length

theorem select_generated (ha : Generated P n a m) (h : select a field vs = .ok (p, ws)) (hfield : P field) :
    ws = vs ∧ Generated P n p m := by
  cases ha with
  | column _ hname =>
      cases h
      exact ⟨rfl, .path _ (by simp [hname, hfield])⟩
  | @path _ first second rest hnames =>
      cases h
      refine ⟨rfl, .path _ fun name hname => ?_⟩
      have hname : name ∈ (first :: second :: rest) ++ [field] := hname
      rcases List.mem_append.1 hname with hname | hname
      · exact hnames name hname
      · obtain rfl := List.mem_singleton.1 hname
        exact hfield
  | param | instant | operation | not | search => cases h

theorem searchOption_of_not_given {key : String} {isSet : Constant → Bool} (h : isGiven isSet e = false) :
    searchOption key isSet e = pure [] := by
  cases e with
  | const j c =>
      rw [isGiven] at h
      rw [searchOption, h]
      rfl
  | ident | select | call => rfl

theorem searchOption_of_given (key : String) {isSet : Constant → Bool} (h : isGiven isSet e = true) :
    ∃ v, searchOption key isSet e = do return [.named key (← bindValue v)] := by
  cases e with
  | const j c =>
      rw [isGiven] at h
      exact ⟨c.toValue, by rw [searchOption, if_pos h]⟩
  | ident | select | call => cases h

theorem searchOption_generated {key : String} {isSet : Constant → Bool} {es : List Sql.Expr}
    (h : searchOption key isSet e vs = .ok (es, ws)) :
    ∃ keys, (∀ k ∈ keys, k = key) ∧ es = namedArgs vs.length keys ∧ ws.length = vs.length + keys.length := by
  cases hgiven : isGiven isSet e with
  | false =>
      rw [searchOption_of_not_given hgiven] at h
      obtain ⟨rfl, rfl⟩ := Binder.pure_eq_ok.1 h
      exact ⟨[], by simp, rfl, rfl⟩
  | true =>
      obtain ⟨v, hv⟩ := searchOption_of_given key hgiven
      rw [hv, Binder.bind_eq_ok] at h
      obtain ⟨a, us, ha, h⟩ := h
      obtain ⟨rfl, rfl⟩ := Binder.pure_eq_ok.1 h
      cases ha
      exact ⟨[key], by simp, rfl, by simp⟩

theorem searchOptions_generated {es : List Sql.Expr} (h : searchOptions args vs = .ok (es, ws)) :
    ∃ keys, (∀ key ∈ keys, key ∈ searchKeys) ∧ es = namedArgs vs.length keys ∧
      ws.length = vs.length + keys.length := by
  unfold searchOptions at h
  split at h
  · simp only [Binder.bind_eq_ok] at h
    obtain ⟨l, us, hl, n, us', hn, p, us'', hp, h⟩ := h
    obtain ⟨rfl, rfl⟩ := Binder.pure_eq_ok.1 h
    obtain ⟨ls, hls, rfl, hus⟩ := searchOption_generated hl
    obtain ⟨ns, hns, rfl, hus'⟩ := searchOption_generated hn
    obtain ⟨ps, hps, rfl, hws⟩ := searchOption_generated hp
    refine ⟨ls ++ ns ++ ps, fun key hkey => ?_, ?_, ?_⟩
    · rw [List.mem_append, List.mem_append] at hkey
      rcases hkey with (hkey | hkey) | hkey
      · simp [hls key hkey, searchKeys]
      · simp [hns key hkey, searchKeys]
      · simp [hps key hkey, searchKeys]
    · rw [namedArgs_append, namedArgs_append, List.length_append, ← Nat.add_assoc, ← hus, ← hus']
    · rw [hws, hus', hus, List.length_append, List.length_append, ← Nat.add_assoc, ← Nat.add_assoc]
  · obtain ⟨rfl, rfl⟩ := Binder.pure_eq_ok.1 h
    exact ⟨[], by simp, rfl, rfl⟩

theorem search_generated (h : search function args vs = .ok (a, ws))
    (hnames : (Node.call id function args).Names P) (hP : ∀ name, P name → P (name ++ "_tokens")) :
    Generated P vs.length (.paren a) ws.length := by
  unfold search at h
  split_ifs at h
  · exact absurd h fail_ne_ok
  · split at h
    · next i name j query rest _ =>
      split_ifs at h
      · exact absurd h fail_ne_ok
      · simp only [Binder.bind_eq_ok] at h
        obtain ⟨q, us, hq, es, us', hes, h⟩ := h
        obtain ⟨rfl, rfl⟩ := Binder.pure_eq_ok.1 h
        cases hq
        obtain ⟨keys, hkeys, rfl, hlength⟩ := searchOptions_generated hes
        rw [hlength, List.length_append]
        have hname : P name := hnames.of_arg List.mem_cons_self _ (Node.self_mem_nodes _) name rfl
        exact .search vs.length (hP name hname) hkeys
    · exact absurd h fail_ne_ok
    · exact absurd h fail_ne_ok

/-- The predicate of a filter is one of those that filters can have, and its parameters follow
those that are already bound. -/
theorem exprOf_generated (h : exprOf cx e vs = .ok (p, ws)) (hnames : e.Names P)
    (hP : ∀ name, P name → P (name ++ "_tokens")) : Generated P vs.length p ws.length := by
  replace h := exprOf_translates h
  induction h with
  | column htype hname => exact .column _ (hnames _ (Node.self_mem_nodes _) _ rfl)
  | enum hname => exact param_generated _ _
  | const => exact param_generated _ _
  | select ha hp ih =>
      have hoperand := ih fun n hn => hnames n (List.mem_cons_of_mem _ hn)
      obtain ⟨rfl, hselect⟩ := select_generated hoperand hp (hnames _ (Node.self_mem_nodes _) _ rfl)
      exact hselect
  | pattern hf hstar hinner =>
      have hname := hnames.of_arg List.mem_cons_self _ (Node.self_mem_nodes _) _ rfl
      exact .operation (.compare .like) (.column _ hname) (param_generated _ _)
  | compare hf hw ha hb ihl ihr =>
      exact .operation (.compare _) (ihl (hnames.of_arg (by simp))) (ihr (hnames.of_arg (by simp)))
  | logical hf hl hr ha hb ihl ihr =>
      exact .operation (.logical _) (ihl (hnames.of_arg (by simp))) (ihr (hnames.of_arg (by simp)))
  | not hf he ha ih => exact .not (ih (hnames.of_arg (by simp)))
  | has hf htype hitem =>
      have hname := hnames.of_arg List.mem_cons_self _ (Node.self_mem_nodes _) _ rfl
      exact .operation .member (param_generated _ _) (.column _ hname)
  | @timestamp id j function text t vs hf ht =>
      rw [List.length_append]
      exact .instant vs.length
  | search hf hsearch hp => exact search_generated hp hnames hP

end

end RowForest.Filter
