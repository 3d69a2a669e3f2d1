import RowForest.Store.Basic
import RowForest.Proofs.Bytes
import RowForest.Proofs.SortedMap
import Mathlib.Data.List.TakeWhile

namespace RowForest

namespace Bytes

theorem toNat_lt_of_ne {b : UInt8} (hb : b ≠ 0xff) : b.toNat < 255 := by
  have hlt := b.toNat_lt
  have hne : b.toNat ≠ 255 := fun h => hb (UInt8.toNat_inj.1 h)
  omega

theorem isLE_replicate_iff {m : Nat} {k : Bytes} :
    (compare (List.replicate m 0xff) k).isLE = true ↔ List.replicate m 0xff <+: k := by
  induction m generalizing k with
  | zero => simp [List.isLE_compare_nil_left]
  | succ m ih =>
      cases k with
      | nil => simp [List.replicate_succ, List.compare_cons_nil]
      | cons c cs =>
          have hlast : compare (0xff : UInt8) c ≠ .lt := by
            rw [ne_eq, compare_eq_lt]
            have hlt := c.toNat_lt
            simp
            omega
          rw [List.replicate_succ, List.compare_cons_cons, List.cons_prefix_cons, ← ih,
            Ordering.isLE_then_iff_or, compare_eq_eq, or_iff_right hlast]

theorem between_iff {q k : Bytes} {b : UInt8} {m : Nat} (hb : b ≠ 0xff) :
    (compare (q ++ b :: List.replicate m 0xff) k).isLE = true ∧ compare k (q ++ [b + 1]) = .lt ↔
      q ++ b :: List.replicate m 0xff <+: k := by
  have hraised : (b + 1).toNat = b.toNat + 1 := by
    have hlt := toNat_lt_of_ne hb
    rw [UInt8.toNat_add]
    exact Nat.mod_eq_of_lt (by simp; omega)
  induction q generalizing k with
  | nil =>
      cases k with
      | nil => simp [List.compare_cons_nil]
      | cons c cs =>
          have hend : compare cs [] ≠ .lt := by
            cases cs <;> simp [List.compare_cons_nil]
          simp only [List.nil_append, List.compare_cons_cons, List.cons_prefix_cons,
            Ordering.isLE_then_iff_or, Ordering.then_eq_lt, isLE_replicate_iff, compare_eq_lt,
            compare_eq_eq, hend, and_false, or_false, hraised]
          constructor
          · rintro ⟨hlt | ⟨rfl, hrest⟩, hle⟩
            · omega
            · exact ⟨rfl, hrest⟩
          · rintro ⟨rfl, hrest⟩
            exact ⟨.inr ⟨rfl, hrest⟩, Nat.lt_succ_self _⟩
  | cons a q ih =>
      cases k with
      | nil => simp [List.compare_cons_nil]
      | cons c cs =>
          simp only [List.cons_append, List.compare_cons_cons, List.cons_prefix_cons, ← ih,
            Ordering.isLE_then_iff_or, Ordering.then_eq_lt, compare_eq_lt, compare_eq_eq]
          constructor
          · rintro ⟨hlt | ⟨rfl, hle⟩, hlt' | ⟨heq, hlt'⟩⟩
            · omega
            · rw [heq] at hlt
              omega
            · omega
            · exact ⟨rfl, hle, hlt'⟩
          · rintro ⟨rfl, hle, hlt⟩
            exact ⟨.inr ⟨rfl, hle⟩, .inr ⟨rfl, hlt⟩⟩

/-- Up to trailing `0xff` bytes a text is empty or ends in a byte that can be raised. -/
theorem rangeEnd_cases (p : Bytes) :
    (∃ m, p = List.replicate m 0xff ∧ p.rangeEnd = none) ∨
      ∃ q b m, p = q ++ b :: List.replicate m 0xff ∧ b ≠ 0xff ∧ p.rangeEnd = some (q ++ [b + 1]) := by
  have hsplit : p = (p.reverse.dropWhile (· = 0xff)).reverse ++ (p.reverse.takeWhile (· = 0xff)).reverse := by
    rw [← List.reverse_append, List.takeWhile_append_dropWhile, List.reverse_reverse]
  obtain ⟨m, hm⟩ : ∃ m, (p.reverse.takeWhile (· = 0xff)).reverse = List.replicate m 0xff := by
    refine ⟨_, List.eq_replicate_iff.2 ⟨rfl, fun b hb => ?_⟩⟩
    simpa using List.mem_takeWhile_imp (List.mem_reverse.1 hb)
  rw [hm] at hsplit
  cases hdrop : p.reverse.dropWhile (· = 0xff) with
  | nil =>
      left
      refine ⟨m, ?_, by rw [rangeEnd, hdrop]⟩
      rwa [hdrop] at hsplit
  | cons b bs =>
      right
      have hb : b ≠ 0xff := by
        have hhead := List.head_dropWhile_not (fun b : UInt8 => decide (b = 0xff)) (l := p.reverse)
          (by rw [hdrop]; exact List.cons_ne_nil _ _)
        simpa [hdrop] using hhead
      refine ⟨bs.reverse, b, m, ?_, hb, by rw [rangeEnd, hdrop]⟩
      rw [hdrop] at hsplit
      simpa using hsplit

/-- The range of a text holds exactly the texts that start with it. -/
theorem inRange_iff {p k : Bytes} : inRange p k = true ↔ p <+: k := by
  rcases rangeEnd_cases p with ⟨m, hp, hend⟩ | ⟨q, b, m, hp, hb, hend⟩
  · rw [inRange, hend, hp]
    simp [isLE_replicate_iff]
  · rw [inRange, hend, hp]
    simp [between_iff hb]

end Bytes

theorem SortedMap.mem_scan {β : Type} {m : SortedMap Bytes β} {p k : Bytes} {v : β} :
    (k, v) ∈ (m.scan p).entries ↔ (k, v) ∈ m.entries ∧ p <+: k := by
  rw [SortedMap.scan, mem_filterKeys, Bytes.inRange_iff]

namespace Store

theorem mem_writeOne {s : Store} {e : Bytes × Option Bytes} {k v : Bytes} :
    (k, v) ∈ (s.writeOne e).entries ↔ k = e.1 ∧ e.2 = some v ∨ k ≠ e.1 ∧ (k, v) ∈ s.entries := by
  obtain ⟨l, staged⟩ := e
  cases staged with
  | none => simp [writeOne, SortedMap.mem_erase]
  | some w => simp [writeOne, SortedMap.mem_insert, eq_comm]

theorem mem_foldl_writeOne {es : List (Bytes × Option Bytes)} (hes : (es.map Prod.fst).Nodup)
    {s : Store} {k v : Bytes} : (k, v) ∈ (es.foldl writeOne s).entries ↔
      (k, some v) ∈ es ∨ k ∉ es.map Prod.fst ∧ (k, v) ∈ s.entries := by
  induction es generalizing s with
  | nil => simp
  | cons e es ih =>
      obtain ⟨l, staged⟩ := e
      rw [List.map_cons, List.nodup_cons] at hes
      rw [List.foldl_cons, ih hes.2, mem_writeOne, List.mem_cons, List.map_cons, List.mem_cons,
        Prod.mk.injEq, not_or]
      constructor
      · rintro (hm | ⟨hk, ⟨rfl, rfl⟩ | ⟨hl, hm⟩⟩)
        · exact .inl (.inr hm)
        · exact .inl (.inl ⟨rfl, rfl⟩)
        · exact .inr ⟨⟨hl, hk⟩, hm⟩
      · rintro (⟨⟨rfl, rfl⟩ | hm⟩ | ⟨⟨hl, hk⟩, hm⟩)
        · exact .inr ⟨hes.1, .inl ⟨rfl, rfl⟩⟩
        · exact .inl hm
        · exact .inr ⟨hk, .inr ⟨hl, hm⟩⟩

theorem mem_write {s : Store} {b : Batch} {k v : Bytes} : (k, v) ∈ (s.write b).entries ↔
    (k, some v) ∈ b.entries ∨ k ∉ b.keys ∧ (k, v) ∈ s.entries :=
  mem_foldl_writeOne b.keys_nodup

end Store

namespace Staging

theorem find?_commit (s : Staging) (k : Bytes) : s.commit.find? k = s.get? k := by
  apply Option.ext
  intro v
  rw [SortedMap.find?_eq_some, commit, Store.mem_write, get?]
  cases hb : s.batch.find? k with
  | none =>
      have hnone := SortedMap.find?_eq_none.1 hb
      have hk : k ∉ s.batch.keys := by
        intro hmem
        obtain ⟨staged, he⟩ := SortedMap.mem_keys.1 hmem
        exact hnone staged he
      rw [SortedMap.find?_eq_some]
      simp [hk, hnone]
  | some staged =>
      have hmem := SortedMap.find?_eq_some.1 hb
      have hk : k ∈ s.batch.keys := SortedMap.mem_keys.2 ⟨_, hmem⟩
      constructor
      · rintro (hv | ⟨hnot, -⟩)
        · exact SortedMap.value_unique hmem hv
        · exact absurd hk hnot
      · rintro rfl
        exact .inl hmem

theorem scan_eq (s : Staging) (p : Bytes) : s.scan p = s.commit.scan p := by
  apply SortedMap.ext_mem
  rintro ⟨k, v⟩
  have hkeys : p <+: k → (k ∈ (s.batch.scan p).keys ↔ k ∈ s.batch.keys) := by
    intro hk
    simp only [SortedMap.mem_keys, SortedMap.mem_scan, hk, and_true]
  rw [scan, Store.mem_write, SortedMap.mem_scan, SortedMap.mem_scan, SortedMap.mem_scan, commit,
    Store.mem_write]
  constructor
  · rintro (⟨hb, hk⟩ | ⟨hnot, hs, hk⟩)
    · exact ⟨.inl hb, hk⟩
    · exact ⟨.inr ⟨mt (hkeys hk).2 hnot, hs⟩, hk⟩
  · rintro ⟨hb | ⟨hnot, hs⟩, hk⟩
    · exact .inl ⟨hb, hk⟩
    · exact .inr ⟨mt (hkeys hk).1 hnot, hs, hk⟩

@[simp] theorem commit_ofStore (s : Store) : (ofStore s).commit = s := rfl

theorem commit_put (s : Staging) (k v : Bytes) : (s.put k v).commit = s.commit.insert k v := by
  apply SortedMap.ext_find?
  intro l
  rw [find?_commit, get?, put, SortedMap.find?_insert, SortedMap.find?_insert, find?_commit, get?]
  by_cases hl : l = k <;> simp [hl]

theorem commit_delete (s : Staging) (k : Bytes) : (s.delete k).commit = s.commit.erase k := by
  apply SortedMap.ext_find?
  intro l
  rw [find?_commit, get?, delete, SortedMap.find?_insert, SortedMap.find?_erase, find?_commit, get?]
  by_cases hl : l = k <;> simp [hl]

end Staging

end RowForest
