import RowForest.SortedMap
import Mathlib.Data.List.Sort

namespace RowForest.SortedMap

variable {α β : Type} [Ord α]

theorem mem_filterKeys {p : α → Bool} {m : SortedMap α β} {k : α} {v : β} :
    (k, v) ∈ (m.filterKeys p).entries ↔ (k, v) ∈ m.entries ∧ p k = true :=
  List.mem_filter

theorem mem_erase [Std.LawfulEqOrd α] {m : SortedMap α β} {k l : α} {w : β} :
    (l, w) ∈ (m.erase k).entries ↔ l ≠ k ∧ (l, w) ∈ m.entries := by
  rw [erase, mem_filterKeys, bne_iff_ne, ne_eq, Std.compare_eq_iff_eq, eq_comm, and_comm]

theorem mem_keys {m : SortedMap α β} {k : α} : k ∈ m.keys ↔ ∃ v, (k, v) ∈ m.entries := by
  simp [keys]

variable [Std.TransOrd α]

theorem ne_of_lt {a b : α} (h : compare a b = .lt) : a ≠ b := by
  rintro rfl
  rw [Std.ReflOrd.compare_self] at h
  cases h

instance : Std.Irrefl (fun a b : α × β => compare a.1 b.1 = .lt) :=
  ⟨fun _ h => ne_of_lt h rfl⟩

instance : Std.Antisymm (fun a b : α × β => compare a.1 b.1 = .lt) :=
  ⟨fun _ _ h h' => absurd rfl (ne_of_lt (Std.TransCmp.lt_trans h h'))⟩

theorem keys_nodup (m : SortedMap α β) : m.keys.Nodup :=
  List.pairwise_map.2 (m.sorted.imp ne_of_lt)

theorem value_unique {m : SortedMap α β} {k : α} {v w : β} (hv : (k, v) ∈ m.entries)
    (hw : (k, w) ∈ m.entries) : v = w :=
  congrArg Prod.snd (List.inj_on_of_nodup_map m.keys_nodup hv hw rfl)

theorem ext_mem {m n : SortedMap α β} (h : ∀ e, e ∈ m.entries ↔ e ∈ n.entries) : m = n := by
  have hentries := m.sorted.eq_of_mem_iff n.sorted h
  cases m
  cases n
  simpa using hentries

instance : Std.Irrefl (fun a b : α => compare a b = .lt) :=
  ⟨fun _ h => ne_of_lt h rfl⟩

instance : Std.Antisymm (fun a b : α => compare a b = .lt) :=
  ⟨fun _ _ h h' => absurd rfl (ne_of_lt (Std.TransCmp.lt_trans h h'))⟩

theorem keys_congr {γ : Type} {m : SortedMap α β} {n : SortedMap α γ} (h : ∀ k, k ∈ m.keys ↔ k ∈ n.keys) :
    m.keys = n.keys := by
  have hm : m.keys.Pairwise (compare · · = .lt) := List.pairwise_map.2 m.sorted
  have hn : n.keys.Pairwise (compare · · = .lt) := List.pairwise_map.2 n.sorted
  exact hm.eq_of_mem_iff hn h

variable [Std.LawfulEqOrd α]

theorem find?_eq_some {m : SortedMap α β} {k : α} {v : β} :
    m.find? k = some v ↔ (k, v) ∈ m.entries := by
  rw [find?, Option.map_eq_some_iff]
  constructor
  · rintro ⟨⟨l, w⟩, hfind, rfl⟩
    have hkey : compare k l = .eq := by simpa using List.find?_some hfind
    rw [Std.LawfulEqCmp.eq_of_compare hkey]
    exact List.mem_of_find?_eq_some hfind
  · intro hmem
    have hsome : (m.entries.find? (fun e => compare k e.1 = .eq)).isSome = true :=
      List.find?_isSome.2 ⟨_, hmem, by simp [Std.ReflOrd.compare_self]⟩
    obtain ⟨⟨l, w⟩, hfind⟩ := Option.isSome_iff_exists.1 hsome
    have hkey : compare k l = .eq := by simpa using List.find?_some hfind
    obtain rfl := Std.LawfulEqCmp.eq_of_compare hkey
    exact ⟨_, hfind, value_unique (List.mem_of_find?_eq_some hfind) hmem⟩

theorem mem_keys_iff_find? {m : SortedMap α β} {k : α} : k ∈ m.keys ↔ ∃ v, m.find? k = some v := by
  simp only [mem_keys, find?_eq_some]

theorem find?_eq_none {m : SortedMap α β} {k : α} :
    m.find? k = none ↔ ∀ v, (k, v) ∉ m.entries := by
  rw [← not_iff_not, ← ne_eq, Option.ne_none_iff_exists']
  simp only [find?_eq_some, not_forall, not_not]

theorem ext_find? {m n : SortedMap α β} (h : ∀ k, m.find? k = n.find? k) : m = n := by
  apply ext_mem
  rintro ⟨k, v⟩
  rw [← find?_eq_some, ← find?_eq_some, h]

theorem mem_insertEntry_iff {k l : α} {v w : β} {es : List (α × β)}
    (h : es.Pairwise (fun a b => compare a.1 b.1 = .lt)) :
    (l, w) ∈ insertEntry k v es ↔ l = k ∧ w = v ∨ l ≠ k ∧ (l, w) ∈ es := by
  induction h with
  | nil =>
      simp only [insertEntry, List.mem_singleton, Prod.mk.injEq, List.not_mem_nil, and_false, or_false]
  | @cons e es he hes ih =>
      obtain ⟨d, x⟩ := e
      simp only [insertEntry]
      split
      · next hk =>
        -- the new key comes before all others, so none of them is replaced
        have hne : (l, w) ∈ (d, x) :: es → l ≠ k := by
          intro hm
          rcases List.mem_cons.1 hm with heq | hm
          · cases heq
            exact (ne_of_lt hk).symm
          · exact (ne_of_lt (Std.TransCmp.lt_trans hk (he _ hm))).symm
        rw [List.mem_cons, Prod.mk.injEq]
        exact or_congr_right ⟨fun hm => ⟨hne hm, hm⟩, And.right⟩
      · next hk =>
        obtain rfl := Std.LawfulEqCmp.eq_of_compare hk
        have hne : (l, w) ∈ es → l ≠ k := fun hm => (ne_of_lt (he _ hm)).symm
        rw [List.mem_cons, Prod.mk.injEq, List.mem_cons, Prod.mk.injEq]
        constructor
        · rintro (hnew | hm)
          · exact .inl hnew
          · exact .inr ⟨hne hm, .inr hm⟩
        · rintro (hnew | ⟨hl, hd | hm⟩)
          · exact .inl hnew
          · exact absurd hd.1 hl
          · exact .inr hm
      · next hk =>
        have hd : d ≠ k := ne_of_lt (Std.OrientedCmp.lt_of_gt hk)
        rw [List.mem_cons, List.mem_cons, ih, Prod.mk.injEq]
        constructor
        · rintro (⟨rfl, rfl⟩ | hnew | ⟨hl, hm⟩)
          · exact .inr ⟨hd, .inl ⟨rfl, rfl⟩⟩
          · exact .inl hnew
          · exact .inr ⟨hl, .inr hm⟩
        · rintro (hnew | ⟨hl, hdx | hm⟩)
          · exact .inr (.inl hnew)
          · exact .inl hdx
          · exact .inr (.inr ⟨hl, hm⟩)

theorem mem_insert {m : SortedMap α β} {k l : α} {v w : β} :
    (l, w) ∈ (m.insert k v).entries ↔ l = k ∧ w = v ∨ l ≠ k ∧ (l, w) ∈ m.entries :=
  mem_insertEntry_iff m.sorted

theorem mem_insertAll {m : SortedMap α β} {es : List (α × β)} (h : (es.map Prod.fst).Nodup)
    {k : α} {v : β} : (k, v) ∈ (m.insertAll es).entries ↔
      (k, v) ∈ es ∨ k ∉ es.map Prod.fst ∧ (k, v) ∈ m.entries := by
  induction es generalizing m with
  | nil => simp [insertAll]
  | cons e es ih =>
      obtain ⟨l, w⟩ := e
      rw [List.map_cons, List.nodup_cons] at h
      have hstep : m.insertAll ((l, w) :: es) = (m.insert l w).insertAll es := rfl
      rw [hstep, ih h.2, mem_insert, List.mem_cons, List.map_cons, List.mem_cons, Prod.mk.injEq,
        not_or]
      constructor
      · rintro (hm | ⟨hk, hnew | ⟨hl, hm⟩⟩)
        · exact .inl (.inr hm)
        · exact .inl (.inl hnew)
        · exact .inr ⟨⟨hl, hk⟩, hm⟩
      · rintro ((⟨rfl, rfl⟩ | hm) | ⟨⟨hl, hk⟩, hm⟩)
        · exact .inr ⟨h.1, .inl ⟨rfl, rfl⟩⟩
        · exact .inl hm
        · exact .inr ⟨hk, .inr ⟨hl, hm⟩⟩

theorem mem_keys_ofList {es : List (α × β)} (h : (es.map Prod.fst).Nodup) {k : α} :
    k ∈ (ofList es).keys ↔ k ∈ es.map Prod.fst := by
  simp only [mem_keys, ofList, mem_insertAll h, empty, List.not_mem_nil, and_false, or_false, List.mem_map,
    Prod.exists, exists_and_right, exists_eq_right]

theorem insertAll_empty (m : SortedMap α β) : empty.insertAll m.toList = m := by
  apply ext_mem
  rintro ⟨k, v⟩
  rw [toList, mem_insertAll m.keys_nodup]
  simp [empty]

variable [DecidableEq α]

theorem find?_insert (m : SortedMap α β) (k l : α) (v : β) :
    (m.insert k v).find? l = if l = k then some v else m.find? l := by
  apply Option.ext
  intro w
  rw [find?_eq_some, mem_insert, ← find?_eq_some]
  by_cases hl : l = k <;> simp [hl, eq_comm]

theorem find?_erase (m : SortedMap α β) (k l : α) :
    (m.erase k).find? l = if l = k then none else m.find? l := by
  apply Option.ext
  intro w
  rw [find?_eq_some, mem_erase, ← find?_eq_some]
  by_cases hl : l = k <;> simp [hl]

theorem find?_insertAll_of_not_mem {m : SortedMap α β} {es : List (α × β)} {k : α}
    (h : k ∉ es.map Prod.fst) : (m.insertAll es).find? k = m.find? k := by
  induction es generalizing m with
  | nil => rfl
  | cons e es ih =>
      rw [List.map_cons, List.mem_cons, not_or] at h
      have hstep : m.insertAll (e :: es) = (m.insert e.1 e.2).insertAll es := rfl
      rw [hstep, ih h.2, find?_insert, if_neg h.1]

theorem find?_insertAll_of_mem {m : SortedMap α β} {es : List (α × β)} {k : α} {v : β}
    (hmem : (k, v) ∈ es) (hsame : ∀ w, (k, w) ∈ es → w = v) : (m.insertAll es).find? k = some v := by
  induction es generalizing m with
  | nil => cases hmem
  | cons e es ih =>
      have hstep : m.insertAll (e :: es) = (m.insert e.1 e.2).insertAll es := rfl
      rw [hstep]
      by_cases hlater : k ∈ es.map Prod.fst
      · obtain ⟨⟨_, w⟩, hw, rfl⟩ := List.mem_map.1 hlater
        obtain rfl := hsame w (List.mem_cons_of_mem _ hw)
        exact ih hw fun u hu => hsame u (List.mem_cons_of_mem _ hu)
      · rw [find?_insertAll_of_not_mem hlater]
        rcases List.mem_cons.1 hmem with rfl | hmem
        · rw [find?_insert, if_pos rfl]
        · exact absurd (List.mem_map.2 ⟨_, hmem, rfl⟩) hlater

end RowForest.SortedMap
