import RowForest.Proofs.Store.Matching
import RowForest.Proofs.Store.Writes

namespace RowForest

namespace Table

variable {t : Table} {k : Key}

theorem storedKey_leading (t : Table) (k : Key) :
    t.storedKey (k.leading t.primaryKey.length) = t.storedKey k := by
  have hdescs : (t.primaryKey.map KeyPart.desc).take t.primaryKey.length = t.primaryKey.map KeyPart.desc :=
    List.take_of_length_le (by rw [List.length_map])
  have hzip : (k.values.take t.primaryKey.length).zip (t.primaryKey.map KeyPart.desc) =
      k.values.zip (t.primaryKey.map KeyPart.desc) := by
    have htake : (k.values.zip (t.primaryKey.map KeyPart.desc)).take t.primaryKey.length =
        (k.values.take t.primaryKey.length).zip
          ((t.primaryKey.map KeyPart.desc).take t.primaryKey.length) := List.take_zipWith
    rw [hdescs] at htake
    exact htake.symm.trans (List.take_of_length_le (by simp))
  rw [storedKey, storedKey, Key.leading, hzip]

theorem exists_storedKey :
    (∃ b, t.storedKey k = .ok b) ↔ ∀ v ∈ k.values.take t.primaryKey.length, v.Scalar := by
  have hlength : (k.leading t.primaryKey.length).length ≤ t.primaryKey.length :=
    List.length_take_le _ _
  rw [← storedKey_leading]
  constructor
  · rintro ⟨b, hb⟩
    exact (RowStore.leads_of_storedKey hlength hb).scalar
  · intro hscalar
    exact Leads.storedKey ⟨by simpa [Key.length] using hlength, hscalar⟩

end Table

namespace KeySet

mutual

/-- The set with what keys should begin with cut to as many parts as the table's keys have. -/
def cut (t : Table) : KeySet → KeySet
  | single k => single k
  | list ks => list ks
  | under k => under (k.leading t.primaryKey.length)
  | union sets => union (cutAll t sets)
termination_by structural x => x

def cutAll (t : Table) : List KeySet → List KeySet
  | [] => []
  | s :: ss => s.cut t :: cutAll t ss
termination_by structural x => x

end

mutual

/-- Whether the keys of a set have bytes, those of single rows being full ones. -/
def Valid (t : Table) : KeySet → Prop
  | single k => k.length = t.primaryKey.length ∧ ∀ v ∈ k.values, v.Scalar
  | list ks => ∀ k ∈ ks, k.length = t.primaryKey.length ∧ ∀ v ∈ k.values, v.Scalar
  | under k => ∀ v ∈ k.values.take t.primaryKey.length, v.Scalar
  | union sets => AllValid t sets
termination_by structural x => x

def AllValid (t : Table) : List KeySet → Prop
  | [] => True
  | s :: ss => s.Valid t ∧ AllValid t ss
termination_by structural x => x

end

mutual

theorem cut_fits (t : Table) : ∀ keys : KeySet, (keys.cut t).Fits t
  | single _ => trivial
  | list _ => trivial
  | under _ => List.length_take_le _ _
  | union sets => cutAll_allFit t sets

theorem cutAll_allFit (t : Table) : ∀ sets, AllFit t (cutAll t sets)
  | [] => trivial
  | s :: ss => ⟨cut_fits t s, cutAll_allFit t ss⟩

end

mutual

theorem Fits.cut_eq {t : Table} : ∀ {keys : KeySet}, keys.Fits t → keys.cut t = keys
  | single _, _ => rfl
  | list _, _ => rfl
  | under _, h => congrArg (fun vs => under ⟨vs⟩) (List.take_of_length_le h)
  | union _, h => congrArg union (AllFit.cutAll_eq h)

theorem AllFit.cutAll_eq {t : Table} : ∀ {sets : List KeySet}, AllFit t sets → cutAll t sets = sets
  | [], _ => rfl
  | _ :: _, h => congrArg₂ List.cons (Fits.cut_eq h.1) (AllFit.cutAll_eq h.2)

end

mutual

theorem contains_cut {t : Table} {l : Key} (hl : l.length = t.primaryKey.length) :
    ∀ {keys : KeySet}, keys.contains l = true → (keys.cut t).contains l = true
  | single _, h => h
  | list _, h => h
  | under k, h => by
    have hlength : k.length ≤ t.primaryKey.length := by
      rw [contains, Key.startsWith, Bool.and_eq_true, decide_eq_true_eq] at h
      exact hl ▸ h.1
    have hfits : (under k).Fits t := hlength
    rwa [hfits.cut_eq]
  | union sets, h => anyContains_cutAll hl h

theorem anyContains_cutAll {t : Table} {l : Key} (hl : l.length = t.primaryKey.length) :
    ∀ {sets : List KeySet}, anyContains sets l = true → anyContains (cutAll t sets) l = true
  | s :: ss, h => by
    rw [anyContains, Bool.or_eq_true] at h
    rw [cutAll, anyContains, Bool.or_eq_true]
    exact h.imp (contains_cut hl) (anyContains_cutAll hl)

end

end KeySet

namespace Staging

variable {s : Staging} {t : Table}

theorem exists_lookupKey {k : Key} : (∃ found, s.lookupKey t k = .ok found) ↔
    k.length = t.primaryKey.length ∧ ∀ v ∈ k.values, v.Scalar := by
  unfold lookupKey
  by_cases hlength : k.length = t.primaryKey.length
  · have hwhole : k.values.take t.primaryKey.length = k.values := List.take_of_length_le hlength.le
    rw [if_pos hlength, ← hwhole, ← Table.exists_storedKey, and_iff_right hlength]
    simp only [Except.exists_bind_eq_ok, Except.pure_ok, Except.ok.injEq, exists_eq', and_true]
  · simp [hlength]

theorem exists_lookupKeys {ks : List Key} : (∃ found, s.lookupKeys t ks = .ok found) ↔
    ∀ k ∈ ks, k.length = t.primaryKey.length ∧ ∀ v ∈ k.values, v.Scalar := by
  induction ks with
  | nil => simp [lookupKeys]
  | cons k ks ih =>
      rw [List.forall_mem_cons, ← ih, ← exists_lookupKey (s := s)]
      simp only [lookupKeys, Except.exists_bind_eq_ok, Except.pure_ok, Except.ok.injEq, exists_eq',
        and_true, exists_and_right]

mutual

theorem exists_lookup : ∀ {keys : KeySet}, (∃ found, s.lookup t keys = .ok found) ↔ keys.Valid t
  | .single _ => exists_lookupKey
  | .list _ => exists_lookupKeys
  | .under k => by
    rw [KeySet.Valid, ← Table.exists_storedKey, lookup]
    simp only [Except.exists_bind_eq_ok, Except.pure_ok, Except.ok.injEq, exists_eq', and_true]
  | .union _ => exists_lookupAll

theorem exists_lookupAll : ∀ {sets : List KeySet},
    (∃ found, s.lookupAll t sets = .ok found) ↔ KeySet.AllValid t sets
  | [] => by simp [lookupAll, KeySet.AllValid]
  | _ :: _ => by
    rw [KeySet.AllValid, ← exists_lookup, ← exists_lookupAll, lookupAll]
    simp only [Except.exists_bind_eq_ok, Except.pure_ok, Except.ok.injEq, exists_eq', and_true,
      exists_and_right]

end

mutual

theorem lookup_cut (s : Staging) (t : Table) : ∀ keys : KeySet, s.lookup t (keys.cut t) = s.lookup t keys
  | .single _ => rfl
  | .list _ => rfl
  | .under k => by rw [KeySet.cut, lookup, lookup, t.storedKey_leading]
  | .union sets => lookupAll_cutAll s t sets

theorem lookupAll_cutAll (s : Staging) (t : Table) :
    ∀ sets, s.lookupAll t (KeySet.cutAll t sets) = s.lookupAll t sets
  | [] => rfl
  | set :: sets => by rw [KeySet.cutAll, lookupAll, lookupAll, lookup_cut s t set, lookupAll_cutAll s t sets]

end

end Staging

namespace RowStore

variable {rs : RowStore} {t : Table}

theorem Picks.mapM_project (h : rs.Reachable) (ht : t ∈ rs.db.tables) {pick : Key → Bool}
    {found : Store} (hfound : rs.Picks t pick found) (columns : List String) :
    found.values.mapM (fun v => do return (← decodeRow v).project columns) =
      .ok (((rs.stored t).filter (fun r => pick (Key.ofRow t r))).map (·.project columns)) := by
  let picked (e : Bytes × Bytes) : Bool := (t.entryRow? e).any (fun r => pick (Key.ofRow t r))
  have hpicked (e : Bytes × Bytes) :
      picked e = true ↔ ∃ r, t.entryRow? e = some r ∧ pick (Key.ofRow t r) = true :=
    Option.any_eq_true _ _
  have heq : found = ⟨rs.store.entries.filter picked, rs.store.sorted.filter _⟩ := by
    apply SortedMap.ext_mem
    intro e
    rw [hfound, List.mem_filter, hpicked]
  rw [heq]
  exact RowStore.mapM_project h ht columns fun e _ => hpicked e

theorem read_eq_ok (h : rs.Reachable) (ht : t ∈ rs.db.tables) {keys : KeySet} {columns : List String}
    {rows : List Row} : rs.read t.name keys columns = .ok rows ↔ keys.Valid t ∧
      rows = ((rs.stored t).filter (fun r => (keys.cut t).contains (Key.ofRow t r))).map
        (·.project columns) := by
  rw [read, h.wellFormed.getTable_of_mem ht, Except.ok_bind, rowsIn,
    ← Staging.exists_lookup (s := Staging.ofStore rs.store), Except.bind_eq_ok, ← exists_and_right]
  refine exists_congr fun found => and_congr_right fun hfound => ?_
  rw [← Staging.lookup_cut] at hfound
  rw [(lookup_picks h ht (keys.cut_fits t) hfound).mapM_project h ht columns, Except.ok.injEq, eq_comm]

/-- A read fails exactly if some key of the set has no bytes, or is not a full one where one row is
asked for. Otherwise it gives stored rows, each once and in the order of their keys. All rows in the set
are among them, and there are no others unless the set asks for rows below a key that is longer than the
table's: of that one, only as many parts count as the table's keys have. -/
theorem read_keySet (h : rs.Reachable) (ht : t ∈ rs.db.tables) (keys : KeySet) (columns : List String) :
    ((∃ rows, rs.read t.name keys columns = .ok rows) ↔ keys.Valid t) ∧
    ∀ rows, rs.read t.name keys columns = .ok rows → ∃ picked : List Row,
      rows = picked.map (·.project columns) ∧
      picked.Pairwise (fun r s => ∃ k l, t.storedKey (Key.ofRow t r) = .ok k ∧
        t.storedKey (Key.ofRow t s) = .ok l ∧ compare k l = .lt) ∧
      (∀ r, r ∈ picked ↔ r ∈ rs.stored t ∧ (keys.cut t).contains (Key.ofRow t r) = true) ∧
      (∀ r ∈ rs.stored t, keys.contains (Key.ofRow t r) = true → r ∈ picked) ∧
      (keys.Fits t → ∀ r ∈ picked, keys.contains (Key.ofRow t r) = true) := by
  refine ⟨?_, fun rows hrows => ?_⟩
  · simp only [read_eq_ok h ht, exists_and_left, exists_eq, and_true]
  · have hpicked (r : Row) : r ∈ (rs.stored t).filter (fun r => (keys.cut t).contains (Key.ofRow t r)) ↔
        r ∈ rs.stored t ∧ (keys.cut t).contains (Key.ofRow t r) = true := List.mem_filter
    refine ⟨_, ((read_eq_ok h ht).1 hrows).2, (stored_sorted h ht).filter _, hpicked, fun r hr hin => ?_,
      fun hfits r hr => ?_⟩
    · refine (hpicked r).2 ⟨hr, KeySet.contains_cut ?_ hin⟩
      simpa [Key.length] using t.length_ofRow r
    · have hin := ((hpicked r).1 hr).2
      rwa [hfits.cut_eq] at hin

/-- The second key is asked for three times. -/
theorem read_keySet_sample : Sample.store.Reachable ∧ Sample.albums ∈ Sample.store.db.tables ∧
    Sample.store.read "Album" (.union [.list [⟨[.int64 2, .int64 1]⟩, ⟨[.int64 2, .int64 1]⟩],
        .under ⟨[.int64 2]⟩]) ["no"] =
      .ok [.ofFields [("no", .int64 5)], .ofFields [("no", .int64 1)]] ∧
    ∃ picked : List Row, [Row.ofFields [("no", .int64 5)], .ofFields [("no", .int64 1)]] =
      picked.map (·.project ["no"]) ∧ ∀ r ∈ picked, r ∈ Sample.store.stored Sample.albums := by
  have halbums : Sample.albums ∈ Sample.store.db.tables := .tail _ (.head _)
  have hread : Sample.store.read "Album" (.union [.list [⟨[.int64 2, .int64 1]⟩, ⟨[.int64 2, .int64 1]⟩],
      .under ⟨[.int64 2]⟩]) ["no"] =
        .ok [.ofFields [("no", .int64 5)], .ofFields [("no", .int64 1)]] := by cbv
  obtain ⟨picked, hrows, -, hmem, -⟩ := (read_keySet Sample.store_reachable halbums _ _).2 _ hread
  exact ⟨Sample.store_reachable, halbums, hread, picked, hrows, fun r hr => ((hmem r).1 hr).1⟩

/-- No singer's key begins with one that is longer, but the singer with its first part is read. -/
theorem read_keySet_long : Sample.store.Reachable ∧
    Sample.store.read "Singer" (.under ⟨[.int64 1, .int64 7]⟩) ["id"] = .ok [.ofFields [("id", .int64 1)]] ∧
    ∀ r ∈ Sample.store.stored Sample.singers,
      (KeySet.under ⟨[.int64 1, .int64 7]⟩).contains (Key.ofRow Sample.singers r) = false := by
  refine ⟨Sample.store_reachable, by cbv, fun r _ => ?_⟩
  rfl

end RowStore

end RowForest
