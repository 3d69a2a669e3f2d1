import RowForest.Proofs.Store.Writes

namespace RowForest

namespace Staging

variable {s s' : Staging} {db : Database}

theorem get?_congr (h : s.commit = s'.commit) (k : Bytes) : s.get? k = s'.get? k := by
  rw [← find?_commit, h, find?_commit]

theorem scan_congr (h : s.commit = s'.commit) (p : Bytes) : s.scan p = s'.scan p := by
  rw [scan_eq, h, ← scan_eq]

theorem lookupKey_congr (h : s.commit = s'.commit) (t : Table) (k : Key) :
    s.lookupKey t k = s'.lookupKey t k := by
  simp only [lookupKey, get?_congr h]

theorem lookupKeys_congr (h : s.commit = s'.commit) (t : Table) (ks : List Key) :
    s.lookupKeys t ks = s'.lookupKeys t ks := by
  induction ks with
  | nil => rfl
  | cons k ks ih => simp only [lookupKeys, lookupKey_congr h, ih]

mutual

theorem lookup_congr (h : s.commit = s'.commit) (t : Table) : ∀ keys, s.lookup t keys = s'.lookup t keys
  | .single k => by simp only [lookup, lookupKey_congr h]
  | .list ks => by simp only [lookup, lookupKeys_congr h]
  | .under k => by simp only [lookup, scan_congr h]
  | .union sets => by simp only [lookup, lookupAll_congr h t sets]

theorem lookupAll_congr (h : s.commit = s'.commit) (t : Table) :
    ∀ sets, s.lookupAll t sets = s'.lookupAll t sets
  | [] => by simp only [lookupAll]
  | set :: sets => by simp only [lookupAll, lookup_congr h t set, lookupAll_congr h t sets]

end

theorem putRow_congr (h : s.commit = s'.commit) (k : Bytes) (r : Row) :
    (s.putRow k r).map commit = (s'.putRow k r).map commit := by
  refine Except.bind_map_congr_right fun v => congrArg Except.ok ?_
  rw [commit_put, commit_put, h]

theorem insertRow_congr (h : s.commit = s'.commit) (t : Table) (r : Row) :
    (s.insertRow t r).map commit = (s'.insertRow t r).map commit := by
  refine Except.bind_map_congr_right fun row => Except.bind_map_congr_right fun k => ?_
  rw [get?_congr h]
  split
  · rfl
  · exact putRow_congr h k row

theorem mergeRow_congr (h : s.commit = s'.commit) (t : Table) (mustExist : Bool) (r : Row) :
    (s.mergeRow t mustExist r).map commit = (s'.mergeRow t mustExist r).map commit := by
  refine Except.bind_map_congr_right fun k => ?_
  have hput (merged : Row) := Except.bind_map_congr_right (x := t.storedRow merged)
    (fun row => putRow_congr h k row)
  rw [get?_congr h]
  split
  · exact Except.bind_map_congr_right hput
  · split
    · rfl
    · exact hput r

theorem delete_congr (h : s.commit = s'.commit) (k : Bytes) : (s.delete k).commit = (s'.delete k).commit := by
  rw [commit_delete, commit_delete, h]

theorem removeBelow_congr {depth : Nat} {child : Table}
    (hremove : ∀ {s s' : Staging}, s.commit = s'.commit → ∀ l,
      (removeRow db depth s child l).map commit = (removeRow db depth s' child l).map commit)
    (h : s.commit = s'.commit) (t : Table) (k : Key) :
    (removeBelow db depth t k s child).map commit = (removeBelow db depth t k s' child).map commit := by
  refine Except.bind_map_congr_right fun p => ?_
  dsimp only
  rw [scan_congr h]
  split
  · exact congrArg Except.ok h
  · split
    · exact Except.foldlM_map_congr (fun l _ s₁ s₂ h₁ => hremove h₁ l) h
    · rfl

theorem removeRow_congr (h : s.commit = s'.commit) (depth : Nat) (t : Table) (k : Bytes) :
    (removeRow db depth s t k).map commit = (removeRow db depth s' t k).map commit := by
  induction depth generalizing s s' t k with
  | zero => exact congrArg Except.ok (delete_congr h k)
  | succ depth ih =>
      rw [removeRow_succ, removeRow_succ, get?_congr h]
      split
      · exact congrArg Except.ok h
      · refine Except.bind_map_congr_right fun row => ?_
        refine Except.bind_map_congr (Except.foldlM_map_congr ?_ h)
          fun s₁ s₂ h₁ => congrArg Except.ok (delete_congr h₁ k)
        exact fun child _ s₁ s₂ h₁ => removeBelow_congr (fun h₂ => ih h₂ child) h₁ t _

/-- Two stagings that would be carried out alike cannot be told apart by any mutation. -/
theorem applyOne_congr (h : s.commit = s'.commit) (m : Mutation) :
    (applyOne db s m).map commit = (applyOne db s' m).map commit := by
  refine Except.bind_map_congr_right fun t => ?_
  cases m with
  | insert table r => exact insertRow_congr h t r
  | update table r => exact mergeRow_congr h t true r
  | upsert table r => exact mergeRow_congr h t false r
  | delete table keys =>
      dsimp only
      rw [lookup_congr h]
      refine Except.bind_map_congr_right fun found => ?_
      exact Except.foldlM_map_congr (fun k _ s₁ s₂ h₁ => removeRow_congr h₁ _ t k) h

end Staging

namespace RowStore

variable (rs : RowStore)

theorem apply_eq_map (ms : List Mutation) : rs.apply ms =
    ((ms.foldlM (Staging.applyOne rs.db) (.ofStore rs.store)).map Staging.commit).map
      (fun store => { rs with store }) := by
  unfold apply
  cases ms.foldlM (Staging.applyOne rs.db) (.ofStore rs.store) <;> rfl

/-- Mutations staged on top of others see what they would see if these were carried out. -/
theorem apply_append (ms₁ ms₂ : List Mutation) :
    rs.apply (ms₁ ++ ms₂) = rs.apply ms₁ >>= fun rs₁ => rs₁.apply ms₂ := by
  rw [apply_eq_map, apply_eq_map, List.foldlM_append]
  cases ms₁.foldlM (Staging.applyOne rs.db) (.ofStore rs.store) with
  | error e => rfl
  | ok s =>
      have hrest : (ms₂.foldlM (Staging.applyOne rs.db) s).map Staging.commit =
          (ms₂.foldlM (Staging.applyOne rs.db) (.ofStore s.commit)).map Staging.commit :=
        Except.foldlM_map_congr (fun m _ s₁ s₂ h => Staging.applyOne_congr h m)
          (Staging.commit_ofStore _).symm
      change ((ms₂.foldlM (Staging.applyOne rs.db) s).map Staging.commit).map _ =
        RowStore.apply { rs with store := s.commit } ms₂
      rw [hrest, apply_eq_map]

theorem apply_eq_foldlM (ms : List Mutation) :
    rs.apply ms = ms.foldlM (fun rs m => rs.apply [m]) rs := by
  induction ms generalizing rs with
  | nil => rfl
  | cons m ms ih =>
      rw [← List.singleton_append, apply_append, List.singleton_append, List.foldlM_cons]
      exact congrArg _ (funext ih)

/-- Two writes that succeed one after the other do the same as one, and if one of them fails, so
does the whole with the same error, and leaves everything as it was before the first. So a write is
its mutations carried out one at a time, and one that fails cannot be noticed by any read. -/
theorem write_append (ms₁ ms₂ : List Mutation) :
    (∀ rs₁ rs₂, rs.write ms₁ = (rs₁, .ok ()) → rs₁.write ms₂ = (rs₂, .ok ()) →
      rs.write (ms₁ ++ ms₂) = (rs₂, .ok ())) ∧
    (∀ rs₁ rs₂ e, rs.write ms₁ = (rs₁, .error e) ∨
        rs.write ms₁ = (rs₁, .ok ()) ∧ rs₁.write ms₂ = (rs₂, .error e) →
      rs.write (ms₁ ++ ms₂) = (rs, .error e)) ∧
    rs.apply ms₁ = ms₁.foldlM (fun rs m => rs.apply [m]) rs ∧
    ∀ rs₁ e, rs.write ms₁ = (rs₁, .error e) →
      (∀ table keys columns, rs₁.read table keys columns = rs.read table keys columns) ∧
        ∀ st, rs₁.query st = rs.query st := by
  refine ⟨fun rs₁ rs₂ h₁ h₂ => ?_, fun rs₁ rs₂ e h => ?_, rs.apply_eq_foldlM ms₁, fun rs₁ e h => ?_⟩
  · rw [write_eq_ok] at h₁ h₂ ⊢
    rw [apply_append, h₁, Except.ok_bind, h₂]
  · refine write_eq_error.2 ⟨?_, rfl⟩
    rw [apply_append]
    rcases h with h₁ | ⟨h₁, h₂⟩
    · rw [(write_eq_error.1 h₁).1, Except.error_bind]
    · rw [write_eq_ok.1 h₁, Except.ok_bind, (write_eq_error.1 h₂).1]
  · obtain ⟨-, rfl⟩ := write_eq_error.1 h
    exact ⟨fun _ _ _ => rfl, fun _ => rfl⟩

theorem write_append_sample :
    (∃ rs₁ rs₂, Sample.store.write [Sample.newName] = (rs₁, .ok ()) ∧
      rs₁.write [.delete "Singer" (.single ⟨[.int64 2]⟩)] = (rs₂, .ok ()) ∧
      Sample.store.write ([Sample.newName] ++ [.delete "Singer" (.single ⟨[.int64 2]⟩)]) =
        (rs₂, .ok ())) ∧
    (∃ e, Sample.store.write ([Sample.newName] ++ [.delete "Venue" .all]) = (Sample.store, .error e)) ∧
    ∃ rs₁ e, Sample.store.write [.delete "Venue" .all] = (rs₁, .error e) ∧
      rs₁.read "Singer" .all ["name"] = Sample.store.read "Singer" .all ["name"] := by
  have hname : Sample.store.write [Sample.newName] = (Sample.renamed, .ok ()) := by cbv
  obtain ⟨rs₂, hdelete⟩ : ∃ rs₂, Sample.renamed.write [.delete "Singer" (.single ⟨[.int64 2]⟩)] =
      (rs₂, .ok ()) := ⟨(Sample.renamed.write [.delete "Singer" (.single ⟨[.int64 2]⟩)]).1, by cbv⟩
  have hmissing (rs : RowStore) (h : rs.db.table? "Venue" = none) :
      rs.write [.delete "Venue" .all] = (rs, .error (.unknownTable "Venue")) := by
    refine write_eq_error.2 ⟨?_, rfl⟩
    simp [apply, Staging.applyOne, Mutation.table, Database.getTable, h]
  have hrenamed := hmissing Sample.renamed (by cbv)
  have hstore := hmissing Sample.store (by cbv)
  exact ⟨⟨_, _, hname, hdelete, (write_append _ _ _).1 _ _ hname hdelete⟩,
    ⟨_, (write_append _ _ _).2.1 _ _ _ (.inr ⟨hname, hrenamed⟩)⟩,
    _, _, hstore, ((write_append _ _ []).2.2.2 _ _ hstore).1 _ _ _⟩

end RowStore

end RowForest
