import RowForest.Proofs.Store.Lookup
import RowForest.Proofs.Value.Equality

namespace RowForest

namespace Key

variable {k l : Key}

theorem equal_iff (h : (∀ v ∈ k.values, v.Scalar) ∨ ∀ v ∈ l.values, v.Scalar) :
    k.equal l = true ↔ k = l := by
  cases k
  cases l
  rw [equal, Value.equalItems_iff h, Key.mk.injEq]

theorem startsWith_iff (h : ∀ v ∈ k.values, v.Scalar) :
    k.startsWith l = true ↔ l.values <+: k.values := by
  have hleading : ∀ v ∈ (k.leading l.length).values, v.Scalar :=
    fun v hv => h v (List.mem_of_mem_take hv)
  rw [startsWith, Bool.and_eq_true, decide_eq_true_eq, equal_iff (.inl hleading), leading,
    List.prefix_iff_eq_take]
  constructor
  · rintro ⟨-, heq⟩
    exact (congrArg Key.values heq).symm
  · intro heq
    refine ⟨?_, ?_⟩
    · have hlength := congrArg List.length heq
      rw [List.length_take] at hlength
      exact hlength.le.trans (Nat.min_le_right _ _)
    · exact congrArg Key.mk heq.symm

end Key

namespace KeySet

mutual

/-- Whether no key that begins others is longer than the table's keys are. -/
def Fits (t : Table) : KeySet → Prop
  | single _ | list _ => True
  | under k => k.length ≤ t.primaryKey.length
  | union sets => AllFit t sets
termination_by structural x => x

def AllFit (t : Table) : List KeySet → Prop
  | [] => True
  | s :: ss => s.Fits t ∧ AllFit t ss
termination_by structural x => x

end

end KeySet

theorem Staging.mem_lookupKey {s : Staging} {t : Table} {k : Key} {found : Store}
    (h : s.lookupKey t k = .ok found) : ∃ b, k.length = t.primaryKey.length ∧ t.storedKey k = .ok b ∧
      ∀ e, e ∈ found.entries ↔ e ∈ s.commit.entries ∧ b = e.1 := by
  unfold lookupKey at h
  split at h
  · next hlength =>
    obtain ⟨b, hb, h⟩ := Except.bind_eq_ok.1 h
    refine ⟨b, hlength, hb, ?_⟩
    rintro ⟨l, w⟩
    rw [← find?_commit] at h
    cases hfind : s.commit.find? b with
    | none =>
        rw [hfind] at h
        cases h
        simp only [SortedMap.empty, List.not_mem_nil, false_iff, not_and]
        rintro he rfl
        exact SortedMap.find?_eq_none.1 hfind w he
    | some v =>
        rw [hfind] at h
        cases h
        have hv := SortedMap.find?_eq_some.1 hfind
        rw [SortedMap.mem_insert]
        constructor
        · rintro (⟨rfl, rfl⟩ | ⟨-, hnone⟩)
          · exact ⟨hv, rfl⟩
          · cases hnone
        · rintro ⟨he, rfl⟩
          exact .inl ⟨rfl, SortedMap.value_unique he hv⟩
  · cases h

namespace RowStore

variable {rs : RowStore} {t : Table}

/-- Whether what was found are the table's entries whose keys are picked. -/
def Picks (rs : RowStore) (t : Table) (pick : Key → Bool) (found : Store) : Prop :=
  ∀ e, e ∈ found.entries ↔
    e ∈ rs.store.entries ∧ ∃ r, t.entryRow? e = some r ∧ pick (Key.ofRow t r) = true

theorem picks_empty : rs.Picks t (fun _ => false) .empty := by
  intro e
  simp [SortedMap.empty]

theorem Picks.insertAll {p q : Key → Bool} {found rest : Store} (hfound : rs.Picks t p found)
    (hrest : rs.Picks t q rest) : rs.Picks t (fun k => p k || q k) (found.insertAll rest.toList) := by
  rintro ⟨k, v⟩
  have hkeys : k ∈ rest.entries.map Prod.fst ↔ ∃ w, (k, w) ∈ rest.entries := SortedMap.mem_keys
  rw [SortedMap.toList, SortedMap.mem_insertAll rest.keys_nodup, hkeys, hfound, hrest]
  constructor
  · rintro (⟨he, r, hr, hq⟩ | ⟨-, he, r, hr, hp⟩)
    · exact ⟨he, r, hr, by simp [hq]⟩
    · exact ⟨he, r, hr, by simp [hp]⟩
  · rintro ⟨he, r, hr, hpick⟩
    by_cases hq : q (Key.ofRow t r) = true
    · exact .inl ⟨he, r, hr, hq⟩
    · refine .inr ⟨?_, he, r, hr, ?_⟩
      · -- an entry found under the same key would be this one
        rintro ⟨w, hw⟩
        obtain ⟨hw', r', hr', hq'⟩ := (hrest _).1 hw
        obtain rfl := SortedMap.value_unique he hw'
        rw [hr] at hr'
        cases hr'
        exact hq hq'
      · simpa [hq] using hpick

theorem leads_of_storedKey {p : Key} (hlength : p.length ≤ t.primaryKey.length) {b : Bytes}
    (hb : t.storedKey p = .ok b) : t.Leads p := by
  have hle : p.values.length ≤ (t.primaryKey.map KeyPart.desc).length := by
    simpa [Key.length] using hlength
  refine ⟨hle, fun v hv => ?_⟩
  obtain ⟨parts, hparts, -⟩ := KeyFormat.encode_eq_ok.1 (Table.storedKey_eq_ok.1 hb)
  rw [← List.map_fst_zip hle] at hv
  obtain ⟨part, hpart, rfl⟩ := List.mem_map.1 hv
  exact KeyFormat.exists_encodeParts.1 ⟨parts, hparts⟩ part hpart

theorem key_iff (h : rs.Reachable) (ht : t ∈ rs.db.tables) {k : Key}
    (hlength : k.length = t.primaryKey.length) {b : Bytes} (hb : t.storedKey k = .ok b)
    {e : Bytes × Bytes} (he : e ∈ rs.store.entries) :
    b = e.1 ↔ ∃ r, t.entryRow? e = some r ∧ k.equal (Key.ofRow t r) = true := by
  have hleads := leads_of_storedKey hlength.le hb
  constructor
  · rintro rfl
    obtain ⟨r, hr, hprefix⟩ := (prefix_iff h ht hleads hb he).1 (List.prefix_refl _)
    have hsame : k.values = (Key.ofRow t r).values :=
      hprefix.eq_of_length (by simpa [Key.ofRow, Table.keyColumns, Key.length] using hlength)
    exact ⟨r, hr, (Key.equal_iff (.inl hleads.scalar)).2 (congrArg Key.mk hsame)⟩
  · rintro ⟨r, hr, hequal⟩
    obtain rfl := (Key.equal_iff (.inl hleads.scalar)).1 hequal
    have hkey := ((entryRow?_eq_some h ht he).1 hr).2.2
    rw [hb] at hkey
    exact Except.ok.inj hkey

theorem lookupKey_picks (h : rs.Reachable) (ht : t ∈ rs.db.tables) {k : Key} {found : Store}
    (hfound : (Staging.ofStore rs.store).lookupKey t k = .ok found) : rs.Picks t k.equal found := by
  obtain ⟨b, hlength, hb, hmem⟩ := Staging.mem_lookupKey hfound
  intro e
  rw [hmem, Staging.commit_ofStore]
  exact and_congr_right fun he => key_iff h ht hlength hb he

theorem lookupKeys_picks (h : rs.Reachable) (ht : t ∈ rs.db.tables) {ks : List Key} {found : Store}
    (hfound : (Staging.ofStore rs.store).lookupKeys t ks = .ok found) :
    rs.Picks t (KeySet.list ks).contains found := by
  induction ks generalizing found with
  | nil =>
      cases hfound
      exact picks_empty
  | cons k ks ih =>
      obtain ⟨first, hfirst, hfound⟩ := Except.bind_eq_ok.1 hfound
      obtain ⟨rest, hrest, hfound⟩ := Except.bind_eq_ok.1 hfound
      cases hfound
      exact (lookupKey_picks h ht hfirst).insertAll (ih hrest)

mutual

/-- A key set finds the stored rows whose keys are in it. -/
theorem lookup_picks (h : rs.Reachable) (ht : t ∈ rs.db.tables) : ∀ {keys : KeySet} {found : Store},
    keys.Fits t → (Staging.ofStore rs.store).lookup t keys = .ok found → rs.Picks t keys.contains found
  | .single k, found, _, hfound => lookupKey_picks h ht hfound
  | .list ks, found, _, hfound => lookupKeys_picks h ht hfound
  | .under k, found, hfits, hfound => by
    obtain ⟨b, hb, hfound⟩ := Except.bind_eq_ok.1 hfound
    cases hfound
    rintro ⟨l, v⟩
    rw [Staging.scan_eq, Staging.commit_ofStore, SortedMap.mem_scan]
    refine and_congr_right fun he => ?_
    rw [prefix_iff h ht (leads_of_storedKey hfits hb) hb he]
    refine exists_congr fun r => and_congr_right fun hr => ?_
    have hstored : r ∈ rs.stored t := List.mem_filterMap.2 ⟨_, he, hr⟩
    exact (Key.startsWith_iff (scalar_of_mem_stored h ht hstored)).symm
  | .union sets, found, hfits, hfound => lookupAll_picks h ht hfits hfound

theorem lookupAll_picks (h : rs.Reachable) (ht : t ∈ rs.db.tables) : ∀ {sets : List KeySet} {found : Store},
    KeySet.AllFit t sets → (Staging.ofStore rs.store).lookupAll t sets = .ok found →
      rs.Picks t (KeySet.anyContains sets) found
  | [], found, _, hfound => by
    cases hfound
    exact picks_empty
  | set :: sets, found, hfits, hfound => by
    obtain ⟨first, hfirst, hfound⟩ := Except.bind_eq_ok.1 hfound
    obtain ⟨rest, hrest, hfound⟩ := Except.bind_eq_ok.1 hfound
    cases hfound
    exact (lookup_picks h ht hfits.1 hfirst).insertAll (lookupAll_picks h ht hfits.2 hrest)

end

end RowStore

end RowForest
