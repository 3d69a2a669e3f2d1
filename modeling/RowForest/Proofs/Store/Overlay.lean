import RowForest.Proofs.Store.Staging
import Mathlib.Logic.Function.Basic

namespace RowForest

namespace SortedMap

variable {β : Type}

theorem toList_scan (m : SortedMap Bytes β) (p : Bytes) :
    (m.scan p).toList = m.toList.filter (fun e => p.isPrefixOf e.1) := by
  refine List.filter_congr fun e _ => ?_
  rw [Bool.eq_iff_iff, Bytes.inRange_iff, List.isPrefixOf_iff_prefix]

/-- The range of a text, from the text on and before the end of its range if it has one, holds the keys that start
with the text and no others, and it is never the wrong way round. So a scan finds just these, each once and in
ascending order, in a store as well as among staged writes. -/
theorem scan_eq_startsWith (m : SortedMap Bytes β) (p : Bytes) :
    (∀ k, ((compare p k).isLE = true ∧ ∀ e, p.rangeEnd = some e → compare k e = .lt) ↔ p <+: k) ∧
      (∀ e, p.rangeEnd = some e → compare p e = .lt) ∧
      (m.scan p).toList = m.toList.filter (fun e => p.isPrefixOf e.1) ∧
      (m.scan p).toList.Pairwise (fun a b => compare a.1 b.1 = .lt) := by
  have hrange (k : Bytes) :
      ((compare p k).isLE = true ∧ ∀ e, p.rangeEnd = some e → compare k e = .lt) ↔ p <+: k := by
    rw [← Bytes.inRange_iff, Bytes.inRange, Bool.and_eq_true, Option.all_eq_true]
    simp only [decide_eq_true_eq]
  exact ⟨hrange, ((hrange p).2 List.prefix_rfl).2, m.toList_scan p, (m.scan p).sorted⟩

end SortedMap

namespace Store

theorem find?_writeOne (s : Store) (e : Bytes × Option Bytes) :
    (s.writeOne e).find? = Function.update s.find? e.1 e.2 := by
  funext k
  obtain ⟨l, staged⟩ := e
  rw [Function.update_apply]
  cases staged with
  | none => rw [writeOne, SortedMap.find?_erase]
  | some v => rw [writeOne, SortedMap.find?_insert]

theorem find?_foldl_writeOne (s : Store) (es : List (Bytes × Option Bytes)) :
    (es.foldl writeOne s).find? = es.foldl (fun m e => Function.update m e.1 e.2) s.find? := by
  induction es generalizing s with
  | nil => rfl
  | cons e es ih => rw [List.foldl_cons, List.foldl_cons, ih, find?_writeOne]

end Store

namespace Staging

def stage (s : Staging) (e : Bytes × Option Bytes) : Staging :=
  match e.2 with
  | some v => s.put e.1 v
  | none => s.delete e.1

@[simp] theorem store_stage (s : Staging) (e : Bytes × Option Bytes) : (s.stage e).store = s.store := by
  unfold stage
  split <;> rfl

theorem commit_stage (s : Staging) (e : Bytes × Option Bytes) :
    (s.stage e).commit = s.commit.writeOne e := by
  obtain ⟨k, staged⟩ := e
  cases staged with
  | none => exact commit_delete s k
  | some v => exact commit_put s k v

theorem store_foldl_stage (s : Staging) (es : List (Bytes × Option Bytes)) :
    (es.foldl stage s).store = s.store := by
  induction es generalizing s with
  | nil => rfl
  | cons e es ih => rw [List.foldl_cons, ih, store_stage]

theorem commit_foldl_stage (s : Staging) (es : List (Bytes × Option Bytes)) :
    (es.foldl stage s).commit = es.foldl Store.writeOne s.commit := by
  induction es generalizing s with
  | nil => rfl
  | cons e es ih => rw [List.foldl_cons, List.foldl_cons, ih, commit_stage]

/-- Writes staged on top of a store are seen, key by key and scan by scan, as the store that carries out their batch
will have them; and that store has what the same writes leave when they are carried out one by one. -/
theorem view_eq_written (s : Store) (es : List (Bytes × Option Bytes)) :
    let v := es.foldl stage (ofStore s)
    (∀ k, v.get? k = (s.write v.batch).find? k) ∧ (∀ p, v.scan p = (s.write v.batch).scan p) ∧
      s.write v.batch = es.foldl Store.writeOne s ∧
      (s.write v.batch).find? = es.foldl (fun m e => Function.update m e.1 e.2) s.find? := by
  intro v
  have hcommit : v.commit = s.write v.batch := by
    rw [commit, store_foldl_stage, ofStore]
  have hwritten : v.commit = es.foldl Store.writeOne s := by
    rw [commit_foldl_stage, commit_ofStore]
  rw [← hcommit]
  refine ⟨fun k => (find?_commit v k).symm, scan_eq v, hwritten, ?_⟩
  rw [hwritten, Store.find?_foldl_writeOne]

end Staging

end RowForest
