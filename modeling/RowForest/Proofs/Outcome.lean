import Mathlib.Data.List.Forall2
import Mathlib.Data.List.Nodup

namespace Except

variable {ε ζ α β : Type}

@[simp] theorem ok_bind (a : α) (f : α → Except ε β) : (Except.ok a >>= f) = f a := rfl

@[simp] theorem error_bind (e : ε) (f : α → Except ε β) :
    ((Except.error e : Except ε α) >>= f) = Except.error e := rfl

@[simp] theorem pure_ok (a : α) : (pure a : Except ε α) = Except.ok a := rfl

theorem bind_eq_ok {x : Except ε α} {f : α → Except ε β} {b : β} :
    (x >>= f) = .ok b ↔ ∃ a, x = .ok a ∧ f a = .ok b := by
  cases x <;> simp

theorem bind_eq_error {x : Except ε α} {f : α → Except ε β} {e : ε} :
    (x >>= f) = .error e ↔ x = .error e ∨ ∃ a, x = .ok a ∧ f a = .error e := by
  cases x <;> simp

theorem exists_bind_eq_ok {x : Except ε α} {f : α → Except ε β} :
    (∃ b, (x >>= f) = .ok b) ↔ ∃ a, x = .ok a ∧ ∃ b, f a = .ok b := by
  cases x <;> simp

theorem unit_bind_eq_ok {x : Except ε Unit} {f : Unit → Except ε β} {b : β} :
    (x >>= f) = .ok b ↔ x = .ok () ∧ f () = .ok b := by
  cases x <;> simp

theorem mapError_eq_ok {x : Except ε α} {f : ε → ζ} {a : α} :
    x.mapError f = .ok a ↔ x = .ok a := by
  cases x <;> simp [Except.mapError]

theorem map_eq_ok {x : Except ε α} {f : α → β} {b : β} :
    x.map f = .ok b ↔ ∃ a, x = .ok a ∧ f a = b := by
  cases x <;> simp [Except.map]

theorem forM_eq_ok {f : α → Except ε Unit} {as : List α} :
    as.forM f = .ok () ↔ ∀ a ∈ as, f a = .ok () := by
  induction as with
  | nil => simp [List.forM]
  | cons a as ih =>
      have step : (a :: as).forM f = (f a >>= fun _ => as.forM f) := rfl
      rw [step, unit_bind_eq_ok, ih, List.forall_mem_cons]

theorem mapM_eq_ok {f : α → Except ε β} {as : List α} {bs : List β} :
    as.mapM f = .ok bs ↔ List.Forall₂ (fun a b => f a = .ok b) as bs := by
  induction as generalizing bs with
  | nil => simp [eq_comm]
  | cons a as ih =>
      simp only [List.mapM_cons, bind_eq_ok, ih, pure_ok, ok.injEq, List.forall₂_cons_left_iff]
      constructor
      · rintro ⟨b, hb, bs, hbs, rfl⟩
        exact ⟨b, bs, hb, hbs, rfl⟩
      · rintro ⟨b, bs, hb, hbs, rfl⟩
        exact ⟨b, hb, bs, hbs, rfl⟩

/-- A part of a list that is mapped step by step comes out as the same part of the result. -/
theorem mapM_slice {f : α → Except ε β} {as : List α} {bs : List β} (h : as.mapM f = .ok bs) (i n : Nat) :
    ((as.drop i).take n).mapM f = .ok ((bs.drop i).take n) := by
  rw [mapM_eq_ok] at h ⊢
  exact List.forall₂_take n (List.forall₂_drop i h)

theorem exists_of_mapM {f : α → Except ε β} {as : List α} {bs : List β} (h : as.mapM f = .ok bs) :
    ∀ a ∈ as, ∃ b, f a = .ok b := by
  induction as generalizing bs with
  | nil => simp
  | cons a as ih =>
      simp only [List.mapM_cons, bind_eq_ok, pure_ok, ok.injEq] at h
      obtain ⟨b, hb, bs, hbs, rfl⟩ := h
      exact List.forall_mem_cons.2 ⟨⟨b, hb⟩, ih hbs⟩

theorem map_of_mapM {γ : Type} {f : α → Except ε β} {g : β → γ} {k : α → γ} {as : List α} {bs : List β}
    (hstep : ∀ a ∈ as, ∀ b, f a = .ok b → g b = k a) (h : as.mapM f = .ok bs) :
    bs.map g = as.map k := by
  induction as generalizing bs with
  | nil =>
      cases h
      rfl
  | cons a as ih =>
      simp only [List.mapM_cons, bind_eq_ok, pure_ok, ok.injEq] at h
      obtain ⟨b, hb, bs, hbs, rfl⟩ := h
      rw [List.map_cons, List.map_cons, hstep a List.mem_cons_self b hb,
        ih (fun a ha => hstep a (List.mem_cons_of_mem _ ha)) hbs]

theorem mapM_eq_ok_map {f : α → Except ε β} {P : α → Prop} {g : α → β} {as : List α} {bs : List β}
    (h : ∀ a ∈ as, ∀ b, f a = .ok b ↔ P a ∧ b = g a) :
    as.mapM f = .ok bs ↔ (∀ a ∈ as, P a) ∧ bs = as.map g := by
  induction as generalizing bs with
  | nil => simp [eq_comm]
  | cons a as ih =>
      simp only [List.mapM_cons, bind_eq_ok, h a List.mem_cons_self,
        ih (fun a ha => h a (List.mem_cons_of_mem _ ha)), pure_ok, ok.injEq, List.forall_mem_cons,
        List.map_cons]
      constructor
      · rintro ⟨_, ⟨ha, rfl⟩, _, ⟨has, rfl⟩, rfl⟩
        exact ⟨⟨ha, has⟩, rfl⟩
      · rintro ⟨⟨ha, has⟩, rfl⟩
        exact ⟨_, ⟨ha, rfl⟩, _, ⟨has, rfl⟩, rfl⟩

/-- Sequences of steps that agree up to `q` do so as a whole, errors included. -/
theorem bind_map_congr {γ δ : Type} {x y : Except ε α} {f g : α → Except ε β} {p : α → γ} {q : β → δ}
    (h : x.map p = y.map p) (step : ∀ a b, p a = p b → (f a).map q = (g b).map q) :
    (x >>= f).map q = (y >>= g).map q := by
  cases x with
  | error e =>
      cases y with
      | error e' =>
          cases h
          rfl
      | ok b => cases h
  | ok a =>
      cases y with
      | error e => cases h
      | ok b => exact step a b (Except.ok.inj h)

theorem bind_map_congr_right {γ : Type} {x : Except ε α} {f g : α → Except ε β} {q : β → γ}
    (step : ∀ a, (f a).map q = (g a).map q) : (x >>= f).map q = (x >>= g).map q := by
  cases x with
  | error e => rfl
  | ok a => exact step a

theorem foldlM_map_congr {γ : Type} {f : β → α → Except ε β} {p : β → γ} {as : List α}
    (step : ∀ a ∈ as, ∀ b c, p b = p c → (f b a).map p = (f c a).map p) {b c : β} (h : p b = p c) :
    (as.foldlM f b).map p = (as.foldlM f c).map p := by
  induction as generalizing b c with
  | nil => exact congrArg Except.ok h
  | cons a as ih =>
      rw [List.foldlM_cons, List.foldlM_cons]
      refine bind_map_congr (step a List.mem_cons_self b c h) fun b' c' h' => ?_
      exact ih (fun a ha => step a (List.mem_cons_of_mem _ ha)) h'

theorem foldlM_keeps {P : β → Prop} {f : β → α → Except ε β} {as : List α} {b b' : β}
    (step : ∀ a ∈ as, ∀ b b', P b → f b a = .ok b' → P b') (hb : P b)
    (h : as.foldlM f b = .ok b') : P b' := by
  induction as generalizing b with
  | nil =>
      cases h
      exact hb
  | cons a as ih =>
      rw [List.foldlM_cons, bind_eq_ok] at h
      obtain ⟨c, hc, h⟩ := h
      exact ih (fun a ha => step a (List.mem_cons_of_mem _ ha)) (step a List.mem_cons_self b c hb hc) h

end Except
