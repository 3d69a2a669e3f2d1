import RowForest.Proofs.Store.Interleaving
import RowForest.Proofs.Store.Writes

namespace RowForest

namespace Staging

/-- Whether what would be stored is a given store without the keys that are gone. -/
def Lacks (s : Staging) (S : Store) (gone : Bytes → Prop) : Prop :=
  ∀ k v, (k, v) ∈ s.commit.entries ↔ (k, v) ∈ S.entries ∧ ¬gone k

/-- Whether a step takes all keys of a region away, if they are still there, or fails if it must
because of rows that are refused. -/
def Removes (S : Store) (step : Staging → Except Error Staging) (blocked : Prop)
    (region : Bytes → Prop) : Prop :=
  ∀ s gone, s.Lacks S gone → (∀ k, region k → ¬gone k) →
    (blocked → ∃ table k child, step s = .error (.write (.hasRows table k child))) ∧
    (¬blocked → ∃ s', step s = .ok s' ∧ s'.Lacks S (fun k => gone k ∨ region k))

variable {S : Store} {α : Type}

theorem Lacks.congr {s : Staging} {gone gone' : Bytes → Prop} (h : s.Lacks S gone)
    (hgone : ∀ k, gone k ↔ gone' k) : s.Lacks S gone' := by
  intro k v
  rw [h, hgone]

theorem Lacks.delete {s : Staging} {gone : Bytes → Prop} (h : s.Lacks S gone) (l : Bytes) :
    (s.delete l).Lacks S (fun k => gone k ∨ k = l) := by
  intro k v
  rw [commit_delete, SortedMap.mem_erase, h, not_or]
  exact ⟨fun ⟨hne, hS, hgone⟩ => ⟨hS, hgone, hne⟩, fun ⟨hS, hgone, hne⟩ => ⟨hne, hS, hgone⟩⟩

theorem Removes.congr {step : Staging → Except Error Staging} {blocked blocked' : Prop}
    {region region' : Bytes → Prop} (h : Removes S step blocked region) (hblocked : blocked ↔ blocked')
    (hregion : ∀ k, region k ↔ region' k) : Removes S step blocked' region' := by
  obtain rfl : blocked = blocked' := propext hblocked
  obtain rfl : region = region' := funext fun k => propext (hregion k)
  exact h

theorem Removes.foldlM {step : Staging → α → Except Error Staging} {as : List α} {blocked : α → Prop}
    {region : α → Bytes → Prop} (h : ∀ a ∈ as, Removes S (step · a) (blocked a) (region a))
    (hapart : as.Pairwise (fun a b => ∀ k, region a k → ¬region b k)) :
    Removes S (fun s => as.foldlM step s) (∃ a ∈ as, blocked a) (fun k => ∃ a ∈ as, region a k) := by
  induction as with
  | nil =>
      intro s gone hs _
      refine ⟨by simp, fun _ => ⟨s, rfl, hs.congr (by simp)⟩⟩
  | cons a as ih =>
      obtain ⟨hfirst, hapart⟩ := List.pairwise_cons.1 hapart
      have ih := ih (fun b hb => h b (List.mem_cons_of_mem _ hb)) hapart
      intro s gone hs hfree
      obtain ⟨herror, hok⟩ := h a List.mem_cons_self s gone hs
        (fun k hk => hfree k ⟨a, List.mem_cons_self, hk⟩)
      dsimp only at herror hok ⊢
      rw [List.foldlM_cons]
      by_cases ha : blocked a
      · obtain ⟨table, k, child, he⟩ := herror ha
        rw [he, Except.error_bind]
        exact ⟨fun _ => ⟨table, k, child, rfl⟩, fun hnone => absurd ⟨a, List.mem_cons_self, ha⟩ hnone⟩
      · obtain ⟨s₁, hs₁, hlacks⟩ := hok ha
        rw [hs₁, Except.ok_bind]
        obtain ⟨herror, hok⟩ := ih s₁ _ hlacks (by
          rintro k ⟨b, hb, hk⟩ (hgone | hregion)
          · exact hfree k ⟨b, List.mem_cons_of_mem _ hb, hk⟩ hgone
          · exact hfirst b hb k hregion hk)
        have hblocked : (∃ b ∈ a :: as, blocked b) ↔ ∃ b ∈ as, blocked b := by
          simp [ha]
        rw [hblocked]
        refine ⟨herror, fun hnone => ?_⟩
        obtain ⟨s₂, hs₂, hlacks⟩ := hok hnone
        refine ⟨s₂, hs₂, hlacks.congr fun k => ?_⟩
        simp only [List.mem_cons, exists_eq_or_imp, or_assoc]

end Staging

namespace RowStore

open Staging

variable {rs : RowStore} {x : Table × Row}

theorem removes_keys (h : rs.Reachable) {N : Table × Row → Prop} {ls : List Bytes}
    (step : Staging → Bytes → Except Error Staging) (hnodup : ls.Nodup)
    (hls : ∀ l, l ∈ ls ↔ ∃ z, N z ∧ rs.At z l) (hstored : ∀ z, N z → ∃ l, rs.At z l)
    (hseparate : rs.Separate N)
    (hstep : ∀ z l, N z → rs.At z l → Removes rs.store (step · l) (rs.Blocked z) (rs.Covers z)) :
    Removes rs.store (fun s => ls.foldlM step s) (∃ z, N z ∧ rs.Blocked z)
      (fun k => ∃ z, N z ∧ rs.Covers z k) := by
  have heach : ∀ l ∈ ls, Removes rs.store (step · l) (∃ z, rs.At z l ∧ rs.Blocked z)
      (fun k => ∃ z, rs.At z l ∧ rs.Covers z k) := by
    intro l hl
    obtain ⟨z, hz, hzl⟩ := (hls l).1 hl
    have hone {P : Table × Row → Prop} : P z ↔ ∃ z, rs.At z l ∧ P z :=
      ⟨fun hP => ⟨z, hzl, hP⟩, fun ⟨w, hw, hP⟩ => At.unique h hw hzl ▸ hP⟩
    exact (hstep z l hz hzl).congr hone fun k => hone (P := (rs.Covers · k))
  have hall {P : Table × Row → Prop} : (∃ l ∈ ls, ∃ z, rs.At z l ∧ P z) ↔ ∃ z, N z ∧ P z := by
    constructor
    · rintro ⟨l, hl, z, hz, hP⟩
      obtain ⟨w, hw, hwl⟩ := (hls l).1 hl
      exact ⟨w, hw, At.unique h hz hwl ▸ hP⟩
    · rintro ⟨z, hz, hP⟩
      obtain ⟨l, hl⟩ := hstored z hz
      exact ⟨l, (hls l).2 ⟨z, hz, hl⟩, z, hl, hP⟩
  refine (Removes.foldlM heach ?_).congr hall fun k => hall (P := (rs.Covers · k))
  -- a key below two of the rows would be that of one row, and the two would be the same
  refine List.Pairwise.imp_of_mem ?_ hnodup
  rintro l m hl hm hne k ⟨v, hv, y, hvy, hy⟩ ⟨w, hw, y', hwy, hy'⟩
  obtain rfl := At.unique h hy hy'
  obtain ⟨v', hv', hl⟩ := (hls l).1 hl
  obtain ⟨w', hw', hm⟩ := (hls m).1 hm
  obtain rfl := At.unique h hv hl
  obtain rfl := At.unique h hw hm
  obtain rfl := hseparate _ _ _ hv' hw' hvy hwy
  have hkey := hv.key
  rw [hw.key] at hkey
  exact hne (Except.ok.inj hkey).symm

theorem scan_of_lacks (h : rs.Reachable) {l : Bytes} (hx : rs.At x l) {c : Table}
    (hc : c ∈ rs.db.children x.1.name) {p : Bytes} (hp : c.storedKey (Key.ofRow x.1 x.2) = .ok p)
    {s : Staging} {gone : Bytes → Prop} (hs : s.Lacks rs.store gone)
    (hfree : ∀ k, (∃ z, (rs.Interleaved x z ∧ z.1 = c) ∧ rs.Covers z k) → ¬gone k) (k : Bytes) :
    k ∈ (s.scan p).keys ↔ ∃ z, (rs.Interleaved x z ∧ z.1 = c) ∧ rs.At z k := by
  have hmem : c ∈ rs.db.tables := (List.mem_filter.1 hc).1
  have hleads := leads_of_child h hx.table hc hx.stored
  rw [scan_eq, SortedMap.mem_keys]
  simp only [SortedMap.mem_scan, hs k]
  constructor
  · rintro ⟨v, ⟨he, -⟩, hrange⟩
    obtain ⟨r, hr, hstarts⟩ := (prefix_iff h hmem hleads hp he).1 hrange
    have hat := at_of_entryRow? h hmem he hr
    exact ⟨(c, r), ⟨⟨hx.table, hx.stored, hc, hat.stored, hstarts⟩, rfl⟩, hat⟩
  · rintro ⟨z, ⟨hxz, rfl⟩, hz⟩
    obtain ⟨v, he, hr⟩ := hz.entryRow? h
    exact ⟨v, ⟨he, hfree k ⟨z, ⟨hxz, rfl⟩, z, .refl, hz⟩⟩,
      (prefix_iff h hmem hleads hp he).2 ⟨z.2, hr, hxz.starts⟩⟩

theorem refuses_or_cascade {name : String} {c : Table} (hc : c ∈ rs.db.children name) :
    c.Refuses ∧ c.interleave.any (·.onDelete = .cascade) = false ∨
      ¬c.Refuses ∧ c.interleave.any (·.onDelete = .cascade) = true := by
  have hparent := (List.mem_filter.1 hc).2
  rw [decide_eq_true_eq, Table.parentName?, Option.map_eq_some_iff] at hparent
  obtain ⟨⟨parent, onDelete⟩, hinterleave, -⟩ := hparent
  cases onDelete <;> simp [Table.Refuses, hinterleave]

theorem removes_children (h : rs.Reachable) {l : Bytes} (hx : rs.At x l) {c : Table}
    (hc : c ∈ rs.db.children x.1.name) {depth : Nat}
    (hremove : ∀ z l, rs.Interleaved x z → rs.At z l →
      Removes rs.store (fun s => removeRow rs.db depth s z.1 l) (rs.Blocked z) (rs.Covers z)) :
    Removes rs.store (removeBelow rs.db depth x.1 (Key.ofRow x.1 x.2) · c)
      (∃ z, (rs.Interleaved x z ∧ z.1 = c) ∧ (z.1.Refuses ∨ rs.Blocked z))
      (fun k => ∃ z, (rs.Interleaved x z ∧ z.1 = c) ∧ rs.Covers z k) := by
  obtain ⟨p, hp⟩ := (leads_of_child h hx.table hc hx.stored).storedKey
  intro s gone hs hfree
  have hfound := scan_of_lacks h hx hc hp hs hfree
  have hstored : ∀ z, rs.Interleaved x z ∧ z.1 = c → ∃ k, rs.At z k :=
    fun z hz => exists_at h hz.1.child_table hz.1.stored
  dsimp only [removeBelow]
  rw [hp, Except.ok_bind]
  cases hempty : (s.scan p).isEmpty with
  | true =>
      have hnone : ∀ z, ¬(rs.Interleaved x z ∧ z.1 = c) := by
        intro z hz
        obtain ⟨k, hk⟩ := hstored z hz
        have hmem := (hfound k).2 ⟨z, hz, hk⟩
        rw [SortedMap.isEmpty, List.isEmpty_iff] at hempty
        simp [SortedMap.keys, hempty] at hmem
      constructor
      · rintro ⟨z, hz, -⟩
        exact absurd hz (hnone z)
      · refine fun _ => ⟨s, rfl, hs.congr fun k => (or_iff_left ?_).symm⟩
        rintro ⟨z, hz, -⟩
        exact hnone z hz
  | false =>
      rcases refuses_or_cascade hc with ⟨hrefuses, hcascade⟩ | ⟨hrefuses, hcascade⟩
      · rw [hcascade]
        refine ⟨fun _ => ⟨_, _, _, rfl⟩, fun hfree => absurd ?_ hfree⟩
        obtain ⟨k, hk⟩ : ∃ k, k ∈ (s.scan p).keys := by
          refine List.exists_mem_of_ne_nil _ fun hnil => ?_
          rw [SortedMap.keys, List.map_eq_nil_iff] at hnil
          simp [SortedMap.isEmpty, hnil] at hempty
        obtain ⟨z, hz, -⟩ := (hfound k).1 hk
        exact ⟨z, hz, .inl (hz.2 ▸ hrefuses)⟩
      · rw [hcascade]
        have hseparate : rs.Separate (fun z => rs.Interleaved x z ∧ z.1 = c) :=
          fun a b y ha hb => separate_children h x a b y ha.1 hb.1
        have hall := removes_keys h (fun s l => removeRow rs.db depth s c l) (s.scan p).keys_nodup
          hfound hstored hseparate (fun z l hz hl => hz.2 ▸ hremove z l hz.1 hl)
        refine (hall.congr (exists_congr fun z => and_congr_right fun hz => ?_) fun _ => .rfl) s gone hs hfree
        rw [hz.2, or_iff_right hrefuses]

/-- Removing a row takes it and all that is below it away, or fails because of rows below it. -/
theorem removeRow_removes (h : rs.Reachable) {depth : Nat} {l : Bytes} (hx : rs.At x l)
    (hdepth : rs.db.tables.length < rs.db.position x.1.name + depth) :
    Removes rs.store (fun s => removeRow rs.db depth s x.1 l) (rs.Blocked x) (rs.Covers x) := by
  induction depth generalizing x l with
  -- children come after their parents in the schema, so the depth outlasts the tables left
  | zero => exact absurd (rs.db.position_le x.1.name) (by omega)
  | succ depth ih =>
      obtain ⟨v, he, hrow⟩ := hx.entryRow? h
      obtain ⟨hholds, hstore, -⟩ := (entryRow?_eq_some h hx.table he).1 hrow
      have heach : ∀ c ∈ rs.db.children x.1.name, Removes rs.store
          (removeBelow rs.db depth x.1 (Key.ofRow x.1 x.2) · c)
          (∃ z, (rs.Interleaved x z ∧ z.1 = c) ∧ (z.1.Refuses ∨ rs.Blocked z))
          (fun k => ∃ z, (rs.Interleaved x z ∧ z.1 = c) ∧ rs.Covers z k) := by
        refine fun c hc => removes_children h hx hc fun z m hxz hz => ih hz ?_
        have hlt := hxz.position_lt h
        omega
      have hapart : (rs.db.children x.1.name).Pairwise fun c d => ∀ k,
          (∃ z, (rs.Interleaved x z ∧ z.1 = c) ∧ rs.Covers z k) →
            ¬∃ z, (rs.Interleaved x z ∧ z.1 = d) ∧ rs.Covers z k := by
        refine List.Pairwise.imp ?_ (h.wellFormed.tables_nodup.of_map.filter _)
        rintro c d hne k ⟨v, ⟨hv, rfl⟩, y, hvy, hy⟩ ⟨w, ⟨hw, rfl⟩, y', hwy, hy'⟩
        obtain rfl := At.unique h hy hy'
        exact hne (congrArg Prod.fst (separate_children h x v w y hv hw hvy hwy))
      have hsome (P : Table × Row → Prop) : (∃ c ∈ rs.db.children x.1.name,
          ∃ z, (rs.Interleaved x z ∧ z.1 = c) ∧ P z) ↔ ∃ z, rs.Interleaved x z ∧ P z := by
        constructor
        · rintro ⟨c, -, z, ⟨hz, -⟩, hP⟩
          exact ⟨z, hz, hP⟩
        · rintro ⟨z, hz, hP⟩
          exact ⟨z.1, hz.child, z, ⟨hz, rfl⟩, hP⟩
      intro s gone hs hfree
      have hget : s.get? l = some v := by
        rw [← find?_commit, SortedMap.find?_eq_some, hs]
        exact ⟨he, hfree l ⟨x, .refl, hx⟩⟩
      obtain ⟨herror, hok⟩ :=
        ((Removes.foldlM heach hapart).congr (hsome _) fun k => hsome (rs.Covers · k)) s gone hs
        (fun k hk => hfree k ((covers_iff hx).2 (.inr hk)))
      dsimp only at herror hok ⊢
      rw [blocked_iff, removeRow_succ, hget]
      dsimp only
      rw [decodeRow_of_store hholds hstore, Except.ok_bind]
      refine ⟨fun hblocked => ?_, fun hfree => ?_⟩
      · obtain ⟨table, k, child, herror⟩ := herror hblocked
        exact ⟨table, k, child, by rw [herror, Except.error_bind]⟩
      · obtain ⟨s', hs', hlacks⟩ := hok hfree
        refine ⟨s'.delete l, by rw [hs', Except.ok_bind, Except.pure_ok], (hlacks.delete l).congr fun k => ?_⟩
        rw [covers_iff hx, or_assoc, or_comm (a := k = l)]

variable {t : Table} {keys : KeySet}

theorem removes_found (h : rs.Reachable) (ht : t ∈ rs.db.tables) {found : Store}
    (hfound : rs.Picks t keys.contains found) :
    Removes rs.store
      (fun s => found.keys.foldlM (fun s bs => removeRow rs.db (rs.db.tables.length + 1) s t bs) s)
      (rs.Refused t keys) (fun k => ∃ x, rs.Doomed t keys x ∧ rs.At x k) := by
  have hkeys : ∀ l, l ∈ found.keys ↔ ∃ x, rs.Picked t keys x ∧ rs.At x l := by
    intro l
    rw [SortedMap.mem_keys]
    constructor
    · rintro ⟨v, hv⟩
      obtain ⟨he, r, hr, hcontains⟩ := (hfound _).1 hv
      have hat := at_of_entryRow? h ht he hr
      exact ⟨(t, r), ⟨rfl, hat.stored, hcontains⟩, hat⟩
    · rintro ⟨x, ⟨rfl, -, hcontains⟩, hx⟩
      obtain ⟨v, he, hr⟩ := hx.entryRow? h
      exact ⟨v, (hfound _).2 ⟨he, x.2, hr, hcontains⟩⟩
  have hstored : ∀ x, rs.Picked t keys x → ∃ l, rs.At x l := by
    rintro x ⟨rfl, hx, -⟩
    exact exists_at h ht hx
  refine (removes_keys h (fun s l => removeRow rs.db (rs.db.tables.length + 1) s t l) found.keys_nodup
    hkeys hstored (separate_table h fun x hx => hx.1) ?_).congr refused_iff.symm fun k =>
      exists_doomed_at.symm
  rintro x l ⟨rfl, -⟩ hx
  exact removeRow_removes h hx (Nat.lt_add_left _ (Nat.lt_succ_self _))

theorem mem_stored_of_removed {rs' : RowStore} (h : rs.Reachable) (h' : rs'.Reachable)
    (hdb : rs'.db = rs.db) (hentries : ∀ k v, (k, v) ∈ rs'.store.entries ↔
      (k, v) ∈ rs.store.entries ∧ ¬∃ x, rs.Doomed t keys x ∧ rs.At x k)
    {u : Table} (hu : u ∈ rs.db.tables) (r : Row) :
    r ∈ rs'.stored u ↔ r ∈ rs.stored u ∧ ¬rs.Doomed t keys (u, r) := by
  rw [mem_stored h' (hdb.symm ▸ hu), mem_stored h hu]
  constructor
  · rintro ⟨⟨k, v⟩, he, hholds, hstore, hkey⟩
    obtain ⟨he, hfree⟩ := (hentries k v).1 he
    have hrow : rs.At (u, r) k := ⟨hu, (mem_stored h hu).2 ⟨(k, v), he, hholds, hstore, hkey⟩, hkey⟩
    exact ⟨⟨(k, v), he, hholds, hstore, hkey⟩, fun hdoomed => hfree ⟨(u, r), hdoomed, hrow⟩⟩
  · rintro ⟨⟨⟨k, v⟩, he, hholds, hstore, hkey⟩, hfree⟩
    have hrow : rs.At (u, r) k := ⟨hu, (mem_stored h hu).2 ⟨(k, v), he, hholds, hstore, hkey⟩, hkey⟩
    refine ⟨(k, v), (hentries k v).2 ⟨he, ?_⟩, hholds, hstore, hkey⟩
    rintro ⟨x, hx, hat⟩
    obtain rfl := At.unique h hat hrow
    exact hfree hx

theorem Rooted.of_removed {rs' : RowStore} (hrooted : rs.Rooted) (hdb : rs'.db = rs.db)
    (hstored : ∀ u ∈ rs.db.tables, ∀ r, r ∈ rs'.stored u ↔ r ∈ rs.stored u ∧ ¬rs.Doomed t keys (u, r)) :
    rs'.Rooted := by
  intro p hp c hc r hr
  rw [hdb] at hp hc
  obtain ⟨hr, hfree⟩ := (hstored c (List.mem_filter.1 hc).1 r).1 hr
  obtain ⟨q, hq⟩ := hrooted p hp c hc r hr
  have hkept := (hstored p hp q).2 ⟨hq.parent, fun hdoomed => hfree (hdoomed.interleaved hq)⟩
  have hkept' := (hstored c (List.mem_filter.1 hc).1 r).2 ⟨hr, hfree⟩
  exact ⟨q, hdb.symm ▸ hp, hkept, hdb.symm ▸ hc, hkept', hq.starts⟩

/-- Deleting a key set that can be read takes away the rows in it and all that are interleaved in
them, and nothing else. It fails only if one of these is in a table that refuses to lose it, and
then takes nothing away. So no row is left without its parent row if none was. -/
theorem write_delete (h : rs.Reachable) (ht : t ∈ rs.db.tables) (hfits : keys.Fits t)
    {columns : List String} {rows : List Row} (hread : rs.read t.name keys columns = .ok rows) :
    (rs.Refused t keys → ∃ table k child,
      rs.write [.delete t.name keys] = (rs, .error (.write (.hasRows table k child)))) ∧
    (¬rs.Refused t keys → ∃ rs', rs.write [.delete t.name keys] = (rs', .ok ()) ∧ rs'.db = rs.db ∧
      (∀ k v, (k, v) ∈ rs'.store.entries ↔
        (k, v) ∈ rs.store.entries ∧ ¬∃ x, rs.Doomed t keys x ∧ rs.At x k) ∧
      (∀ u ∈ rs.db.tables, ∀ r, r ∈ rs'.stored u ↔ r ∈ rs.stored u ∧ ¬rs.Doomed t keys (u, r)) ∧
      (rs.Rooted → rs'.Rooted)) := by
  have htable := h.wellFormed.getTable_of_mem ht
  obtain ⟨found, hfound⟩ : ∃ found, (Staging.ofStore rs.store).lookup t keys = .ok found := by
    rw [read, htable, Except.ok_bind, rowsIn, Except.bind_eq_ok] at hread
    exact hread.imp fun _ => And.left
  have hone : applyOne rs.db (.ofStore rs.store) (.delete t.name keys) =
      found.keys.foldlM (fun s bs => removeRow rs.db (rs.db.tables.length + 1) s t bs) (.ofStore rs.store) := by
    simp only [applyOne, Mutation.table, htable, hfound, Except.ok_bind]
  have hlacks : (Staging.ofStore rs.store).Lacks rs.store (fun _ => False) := by
    intro k v
    simp
  obtain ⟨herror, hok⟩ := removes_found h ht (lookup_picks h ht hfits hfound) _ _ hlacks (by simp)
  dsimp only at herror hok
  refine ⟨fun hrefused => ?_, fun hfree => ?_⟩
  · obtain ⟨table, k, child, herror⟩ := herror hrefused
    refine ⟨table, k, child, write_eq_error.2 ⟨?_, rfl⟩⟩
    rw [apply_singleton, hone, herror, Except.error_bind]
  · obtain ⟨s, hs, hlacks⟩ := hok hfree
    have hwrite : rs.apply [.delete t.name keys] = .ok { rs with store := s.commit } := by
      rw [apply_singleton, hone, hs, Except.ok_bind]
    have hentries := hlacks.congr fun k => iff_of_eq (false_or _)
    have hstored := fun u => mem_stored_of_removed h (h.apply hwrite) rfl hentries (u := u)
    exact ⟨_, write_eq_ok.2 hwrite, rfl, hentries, hstored, fun hrooted => hrooted.of_removed rfl hstored⟩

end RowStore

namespace Sample

def keptAlbums : Table := { albums with interleave := some ⟨"Singer", .noAction⟩ }

def keptDb : Database := Database.empty.run [.createTable singers, .createTable keptAlbums]

def keptStore : RowStore :=
  ((RowStore.ofDatabase keptDb).apply writes).toOption.getD (.ofDatabase keptDb)

theorem keptStore_reachable : keptStore.Reachable :=
  RowStore.reachable_getD ⟨[.createTable singers, .createTable keptAlbums], rfl⟩ _

def ella : Row := .ofFields [("id", .int64 2), ("name", .string "Ella")]

theorem ella_stored : ella ∈ store.stored singers := by
  have hstored : store.stored singers = [.ofFields [("id", .int64 1), ("name", .null)], ella] := by cbv
  simp [hstored]

theorem stored_albums : store.stored albums =
    [.ofFields [("id", .int64 2), ("no", .int64 5), ("delete_time", .null)],
      .ofFields [("id", .int64 2), ("no", .int64 1), ("delete_time", .null)]] := by
  cbv

theorem ella_albums {r : Row} (hr : r ∈ store.stored albums) : store.Interleaved (singers, ella) (albums, r) := by
  refine ⟨.head _, ella_stored, List.mem_filter.2 ⟨.tail _ (.head _), rfl⟩, hr, ?_⟩
  simp only [stored_albums, List.mem_cons, List.not_mem_nil, or_false] at hr
  rcases hr with rfl | rfl <;> exact ⟨_, rfl⟩

theorem store_tables {t : Table} (ht : t ∈ store.db.tables) : t = singers ∨ t = albums := by
  have htables : store.db.tables = [singers, albums] := by cbv
  simpa [htables] using ht

theorem store_rooted : store.Rooted := by
  intro p hp c hc r hr
  rcases store_tables (List.mem_filter.1 hc).1 with rfl | rfl
  · exact absurd (List.mem_filter.1 hc).2 (by simp [singers, Table.parentName?])
  · rcases store_tables hp with rfl | rfl
    · exact ⟨ella, ella_albums hr⟩
    · exact absurd (List.mem_filter.1 hc).2 (by decide)

theorem store_not_refused (keys : KeySet) : ¬store.Refused singers keys := by
  rintro ⟨p, ⟨c, r⟩, -, hi, hc⟩
  rcases store_tables hi.child_table with rfl | rfl <;> cases hc

theorem keptStore_refused : keptStore.Refused singers (.single ⟨[.int64 2]⟩) := by
  have hsinger : ella ∈ keptStore.stored singers := by
    have hstored : keptStore.stored singers = [.ofFields [("id", .int64 1), ("name", .null)], ella] := by cbv
    simp [hstored]
  have halbum : .ofFields [("id", .int64 2), ("no", .int64 5), ("delete_time", .null)] ∈
      keptStore.stored keptAlbums := by
    have hstored : keptStore.stored keptAlbums = store.stored albums := by cbv
    rw [hstored, stored_albums]
    exact .head _
  exact ⟨(singers, ella), (keptAlbums, _), .picked ⟨rfl, hsinger, rfl⟩,
    ⟨.head _, hsinger, List.mem_filter.2 ⟨.tail _ (.head _), rfl⟩, halbum, ⟨_, rfl⟩⟩, rfl⟩

end Sample

namespace RowStore

theorem write_delete_sample :
    (∃ rs', Sample.store.write [.delete "Singer" (.single ⟨[.int64 2]⟩)] = (rs', .ok ()) ∧
      (∀ r, r ∉ rs'.stored Sample.albums) ∧ rs'.Rooted) ∧
    ∃ table k child, Sample.keptStore.write [.delete "Singer" (.single ⟨[.int64 2]⟩)] =
      (Sample.keptStore, .error (.write (.hasRows table k child))) := by
  have hfits : KeySet.Fits Sample.singers (.single ⟨[.int64 2]⟩) := trivial
  have hread : Sample.store.read "Singer" (.single ⟨[.int64 2]⟩) [] = .ok [.empty] := by cbv
  have hkeptRead : Sample.keptStore.read "Singer" (.single ⟨[.int64 2]⟩) [] = .ok [.empty] := by cbv
  obtain ⟨rs', hwrite, -, -, hstored, hrooted⟩ :=
    (write_delete Sample.store_reachable (.head _) hfits hread).2 (Sample.store_not_refused _)
  refine ⟨⟨rs', hwrite, fun r hr => ?_, hrooted Sample.store_rooted⟩,
    (write_delete Sample.keptStore_reachable (.head _) hfits hkeptRead).1 Sample.keptStore_refused⟩
  obtain ⟨hr, hkept⟩ := (hstored Sample.albums (.tail _ (.head _)) r).1 hr
  exact hkept (.interleaved (.picked ⟨rfl, Sample.ella_stored, rfl⟩) (Sample.ella_albums hr))

end RowStore

end RowForest
