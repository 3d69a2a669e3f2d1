import Mathlib.Data.List.Infix
import RowForest.Eval.Value

namespace RowForest.Eval

inductive Token
  | any
  | one
  | char (c : Char)

def tokens : List Char → List Token
  | [] => []
  | '%' :: p => .any :: tokens p
  | '_' :: p => .one :: tokens p
  | '\\' :: c :: p => .char c :: tokens p
  | c :: p => .char c :: tokens p

/-- Whether a text is made up as the parts of a pattern say. -/
inductive Matches : List Token → List Char → Prop
  | nil : Matches [] []
  | any {ts : List Token} {s : List Char} (a : List Char) (h : Matches ts s) : Matches (.any :: ts) (a ++ s)
  | one {ts : List Token} {s : List Char} (c : Char) (h : Matches ts s) : Matches (.one :: ts) (c :: s)
  | char {ts : List Token} {s : List Char} (c : Char) (h : Matches ts s) : Matches (.char c :: ts) (c :: s)

variable {ts : List Token} {p s q v : List Char}

theorem matches_nil : Matches [] v ↔ v = [] := by
  constructor
  · rintro ⟨⟩
    rfl
  · rintro rfl
    exact .nil

theorem matches_any : Matches (.any :: ts) v ↔ ∃ a b, v = a ++ b ∧ Matches ts b := by
  constructor
  · rintro (_ | ⟨a, h⟩)
    exact ⟨a, _, rfl, h⟩
  · rintro ⟨a, b, rfl, h⟩
    exact .any a h

theorem matches_one : Matches (.one :: ts) v ↔ ∃ c b, v = c :: b ∧ Matches ts b := by
  constructor
  · rintro (_ | _ | ⟨c, h⟩)
    exact ⟨c, _, rfl, h⟩
  · rintro ⟨c, b, rfl, h⟩
    exact .one c h

theorem matches_char {c : Char} : Matches (.char c :: ts) v ↔ ∃ b, v = c :: b ∧ Matches ts b := by
  constructor
  · rintro (_ | _ | _ | ⟨_, h⟩)
    exact ⟨_, rfl, h⟩
  · rintro ⟨b, rfl, h⟩
    exact .char c h

theorem anySuffix_iff {α : Type} {f : List α → Bool} {as : List α} :
    anySuffix f as = true ↔ ∃ a b, as = a ++ b ∧ f b = true := by
  induction as with
  | nil =>
      rw [anySuffix]
      constructor
      · exact fun h => ⟨[], [], rfl, h⟩
      · rintro ⟨a, b, hab, h⟩
        rwa [(List.append_eq_nil_iff.1 hab.symm).2] at h
  | cons x as ih =>
      rw [anySuffix, Bool.or_eq_true, ih]
      constructor
      · rintro (h | ⟨a, b, rfl, h⟩)
        · exact ⟨[], x :: as, rfl, h⟩
        · exact ⟨x :: a, b, rfl, h⟩
      · rintro ⟨_ | ⟨y, a⟩, b, hab, h⟩
        · rw [List.nil_append] at hab
          exact .inl (hab ▸ h)
        · obtain ⟨-, rfl⟩ := List.cons.inj hab
          exact .inr ⟨a, b, rfl, h⟩

theorem like_char_iff {c : Char} (hnil : like q [] = false)
    (hcons : ∀ d v, like q (d :: v) = (decide (d = c) && like p v))
    (hrest : ∀ v, like p v = true ↔ Matches ts v) : like q v = true ↔ Matches (.char c :: ts) v := by
  rw [matches_char]
  cases v with
  | nil => simp [hnil]
  | cons d v =>
      rw [hcons, Bool.and_eq_true, decide_eq_true_eq, hrest]
      constructor
      · rintro ⟨rfl, h⟩
        exact ⟨v, rfl, h⟩
      · rintro ⟨b, hb, h⟩
        obtain ⟨rfl, rfl⟩ := List.cons.inj hb
        exact ⟨rfl, h⟩

theorem like_iff : like p v = true ↔ Matches (tokens p) v := by
  induction p using tokens.induct generalizing v with
  | case1 => rw [like, tokens, matches_nil, List.isEmpty_iff]
  | case2 p ih =>
      rw [like, tokens, anySuffix_iff, matches_any]
      simp only [ih]
  | case3 p ih =>
      rw [tokens, matches_one]
      cases v with
      | nil => simp [like]
      | cons d v => simp [like, ih]
  | case4 c p ih =>
      rw [tokens]
      exact like_char_iff (by rw [like]) (fun d v => by rw [like]) fun _ => ih
  | case5 c p hany hone hescape ih =>
      rw [tokens.eq_5 c p hany hone hescape]
      exact like_char_iff (like.eq_7 c p hany hone hescape) (fun d v => like.eq_8 c p d v hany hone hescape)
        fun _ => ih

/-- Whether a text stands for itself where `q` comes after it in a pattern. A backslash may only
be the last character of the whole. -/
structure Literal (s q : List Char) : Prop where
  no_any : '%' ∉ s
  no_one : '_' ∉ s
  no_escape : '\\' ∉ (s ++ q).dropLast

theorem tokens_cons {c : Char} (hany : c ≠ '%') (hone : c ≠ '_') (hescape : c = '\\' → p = []) :
    tokens (c :: p) = .char c :: tokens p := by
  refine tokens.eq_5 c p hany hone fun d r hc hp => ?_
  rw [hescape hc] at hp
  cases hp

theorem literal_cons {c : Char} : Literal (c :: s) q ↔
    c ≠ '%' ∧ c ≠ '_' ∧ (c = '\\' → s ++ q = []) ∧ Literal s q := by
  have hdrop (r : List Char) : '\\' ∉ (c :: r).dropLast ↔ (c = '\\' → r = []) ∧ '\\' ∉ r.dropLast := by
    cases r with
    | nil => simp
    | cons d r => simp [eq_comm]
  constructor
  · rintro ⟨hany, hone, hescape⟩
    rw [List.mem_cons, not_or] at hany hone
    obtain ⟨hlast, hescape⟩ := (hdrop _).1 hescape
    exact ⟨Ne.symm hany.1, Ne.symm hone.1, hlast, hany.2, hone.2, hescape⟩
  · rintro ⟨hany, hone, hlast, h⟩
    refine ⟨?_, ?_, (hdrop _).2 ⟨hlast, h.no_escape⟩⟩
    · exact List.not_mem_cons_of_ne_of_not_mem (Ne.symm hany) h.no_any
    · exact List.not_mem_cons_of_ne_of_not_mem (Ne.symm hone) h.no_one

theorem tokens_literal (h : Literal s q) : tokens (s ++ q) = s.map .char ++ tokens q := by
  induction s with
  | nil => rfl
  | cons c s ih =>
      obtain ⟨hany, hone, hlast, hrest⟩ := literal_cons.1 h
      rw [List.cons_append, tokens_cons hany hone hlast, ih hrest]
      rfl

theorem matches_literal : Matches (s.map .char ++ ts) v ↔ ∃ b, v = s ++ b ∧ Matches ts b := by
  induction s generalizing v with
  | nil => simp
  | cons c s ih =>
      rw [List.map_cons, List.cons_append, matches_char]
      simp only [ih]
      constructor
      · rintro ⟨_, rfl, b, rfl, h⟩
        exact ⟨b, rfl, h⟩
      · rintro ⟨b, rfl, h⟩
        exact ⟨s ++ b, rfl, b, rfl, h⟩

def least : List Token → List Char
  | [] => []
  | .any :: ts => least ts
  | .one :: ts => 'a' :: least ts
  | .char c :: ts => c :: least ts

theorem matches_least (ts : List Token) : Matches ts (least ts) := by
  induction ts with
  | nil => exact .nil
  | cons t ts ih =>
      cases t with
      | any => exact .any [] ih
      | one => exact .one 'a' ih
      | char c => exact .char c ih

/-- The shortest text of a pattern is no longer than the pattern, and is another one if anything in
the pattern does not stand for itself. -/
theorem least_tokens (hq : q = [] ∨ q = ['%']) (s : List Char) :
    (least (tokens (s ++ q))).length ≤ s.length ∧ (least (tokens (s ++ q)) = s → Literal s q) := by
  induction s using tokens.induct with
  | case1 => rcases hq with rfl | rfl <;> exact ⟨le_rfl, fun _ => ⟨by simp, by simp, by simp⟩⟩
  | case2 p ih =>
      rw [List.cons_append, tokens, least, List.length_cons]
      refine ⟨Nat.le_succ_of_le ih.1, fun heq => ?_⟩
      have hlength := ih.1
      rw [heq, List.length_cons] at hlength
      omega
  | case3 p ih =>
      rw [List.cons_append, tokens, least]
      exact ⟨Nat.succ_le_succ ih.1, fun heq => absurd (List.cons.inj heq).1 (by decide)⟩
  | case4 c p ih =>
      rw [List.cons_append, List.cons_append, tokens, least, List.length_cons, List.length_cons,
        List.length_cons]
      refine ⟨by omega, fun heq => ?_⟩
      have hlength := ih.1
      have hwhole := congrArg List.length heq
      rw [List.length_cons, List.length_cons, List.length_cons] at hwhole
      omega
  | case5 c p hany hone hescape ih =>
      by_cases hlast : c = '\\' → p ++ q = []
      · rw [List.cons_append, tokens_cons hany hone hlast, least]
        refine ⟨Nat.succ_le_succ ih.1, fun heq => literal_cons.2 ⟨hany, hone, hlast, ?_⟩⟩
        exact ih.2 (List.cons.inj heq).2
      · -- a backslash at the end escapes the character that comes after the text
        obtain ⟨rfl, hrest⟩ := Classical.not_imp.1 hlast
        have hp : p = [] := by
          cases p with
          | nil => rfl
          | cons d r => exact (hescape d r rfl rfl).elim
        subst hp
        rcases hq with rfl | rfl
        · exact absurd rfl hrest
        · exact ⟨le_rfl, fun heq => absurd heq (by decide)⟩

theorem literal_of_infix (hq : q = [] ∨ q = ['%']) (h : s <:+: least (tokens (s ++ q))) : Literal s q := by
  obtain ⟨hlength, hliteral⟩ := least_tokens hq s
  exact hliteral (h.eq_of_length_le hlength).symm

theorem literal_any : Literal s ['%'] ↔ '%' ∉ s ∧ '_' ∉ s ∧ '\\' ∉ s := by
  have hdrop : (s ++ ['%']).dropLast = s := List.dropLast_concat
  exact ⟨fun h => ⟨h.no_any, h.no_one, hdrop ▸ h.no_escape⟩, fun h => ⟨h.1, h.2.1, hdrop.symm ▸ h.2.2⟩⟩

theorem literal_nil : Literal s [] ↔ '%' ∉ s ∧ '_' ∉ s ∧ '\\' ∉ s.dropLast := by
  have hdrop : (s ++ []).dropLast = s.dropLast := congrArg _ (List.append_nil s)
  exact ⟨fun h => ⟨h.no_any, h.no_one, hdrop ▸ h.no_escape⟩, fun h => ⟨h.1, h.2.1, hdrop.symm ▸ h.2.2⟩⟩

/-- A pattern finds a text wherever it is contained, and nowhere else, exactly if nothing in the text
has a meaning in patterns. -/
theorem contains_iff : (∀ v, Matches (tokens ('%' :: (s ++ ['%']))) v ↔ s <:+: v) ↔
    '%' ∉ s ∧ '_' ∉ s ∧ '\\' ∉ s := by
  rw [← literal_any, tokens]
  constructor
  · intro h
    exact literal_of_infix (.inr rfl) ((h _).1 (.any [] (matches_least _)))
  · intro h v
    rw [tokens_literal h, matches_any]
    simp only [matches_literal]
    constructor
    · rintro ⟨a, _, rfl, b, rfl, -⟩
      exact ⟨a, b, List.append_assoc _ _ _⟩
    · rintro ⟨a, b, rfl⟩
      exact ⟨a, s ++ b, List.append_assoc _ _ _, b, rfl, matches_any.2 ⟨b, [], by simp, .nil⟩⟩

theorem ends_iff : (∀ v, Matches (tokens ('%' :: s)) v ↔ s <:+ v) ↔
    '%' ∉ s ∧ '_' ∉ s ∧ '\\' ∉ s.dropLast := by
  rw [← literal_nil, tokens]
  constructor
  · intro h
    have hinfix : s <:+: least (tokens (s ++ [])) := by
      rw [List.append_nil]
      exact ((h _).1 (.any [] (matches_least _))).isInfix
    exact literal_of_infix (.inl rfl) hinfix
  · intro h v
    have htokens : tokens s = s.map .char ++ [] := by
      have happend := tokens_literal h
      rwa [List.append_nil] at happend
    rw [htokens, matches_any]
    simp only [matches_literal, matches_nil]
    constructor
    · rintro ⟨a, _, rfl, _, rfl, rfl⟩
      exact ⟨a, by rw [List.append_nil]⟩
    · rintro ⟨a, rfl⟩
      exact ⟨a, s, rfl, [], (List.append_nil s).symm, rfl⟩

theorem starts_iff : (∀ v, Matches (tokens (s ++ ['%'])) v ↔ s <+: v) ↔
    '%' ∉ s ∧ '_' ∉ s ∧ '\\' ∉ s := by
  rw [← literal_any]
  constructor
  · intro h
    exact literal_of_infix (.inr rfl) ((h _).1 (matches_least _)).isInfix
  · intro h v
    rw [tokens_literal h, matches_literal]
    constructor
    · rintro ⟨b, rfl, -⟩
      exact ⟨b, rfl⟩
    · rintro ⟨b, rfl⟩
      exact ⟨b, rfl, matches_any.2 ⟨b, [], by simp, .nil⟩⟩

end RowForest.Eval
