namespace RowForest

/-- A finite map as its entries in strictly ascending order of keys. -/
structure SortedMap (α β : Type) [Ord α] where
  entries : List (α × β)
  sorted : entries.Pairwise (fun a b => compare a.1 b.1 = .lt)

namespace SortedMap

variable {α β γ : Type} [Ord α]

def empty : SortedMap α β := ⟨[], .nil⟩

instance : Inhabited (SortedMap α β) := ⟨empty⟩

def toList (m : SortedMap α β) : List (α × β) := m.entries

def keys (m : SortedMap α β) : List α := m.entries.map Prod.fst

def values (m : SortedMap α β) : List β := m.entries.map Prod.snd

def size (m : SortedMap α β) : Nat := m.entries.length

def isEmpty (m : SortedMap α β) : Bool := m.entries.isEmpty

def find? (m : SortedMap α β) (k : α) : Option β :=
  (m.entries.find? (fun e => compare k e.1 = .eq)).map Prod.snd

def contains (m : SortedMap α β) (k : α) : Bool := (m.find? k).isSome

def filterKeys (p : α → Bool) (m : SortedMap α β) : SortedMap α β :=
  ⟨m.entries.filter (fun e => p e.1), m.sorted.filter _⟩

def insertEntry (k : α) (v : β) : List (α × β) → List (α × β)
  | [] => [(k, v)]
  | e :: es =>
    match compare k e.1 with
    | .lt => (k, v) :: e :: es
    | .eq => (k, v) :: es
    | .gt => e :: insertEntry k v es

theorem mem_insertEntry {k : α} {v : β} {es : List (α × β)} {e : α × β}
    (h : e ∈ insertEntry k v es) : e = (k, v) ∨ e ∈ es := by
  induction es with
  | nil => exact .inl (by simpa [insertEntry] using h)
  | cons d es ih =>
    simp only [insertEntry] at h
    split at h
    · simpa using h
    · simp only [List.mem_cons] at h ⊢
      exact h.imp_right .inr
    · simp only [List.mem_cons] at h ⊢
      rcases h with h | h
      · exact .inr (.inl h)
      · exact (ih h).imp_right .inr

variable [Std.TransOrd α] [Std.LawfulEqOrd α]

theorem pairwise_insertEntry (k : α) (v : β) {es : List (α × β)}
    (h : es.Pairwise (fun a b => compare a.1 b.1 = .lt)) :
    (insertEntry k v es).Pairwise (fun a b => compare a.1 b.1 = .lt) := by
  induction h with
  | nil => simp [insertEntry]
  | @cons e es he hes ih =>
    simp only [insertEntry]
    split
    · next hk =>
      refine .cons ?_ (.cons he hes)
      intro d hd
      rcases List.mem_cons.1 hd with rfl | hd
      · exact hk
      · exact Std.TransCmp.lt_trans hk (he d hd)
    · next hk =>
      have : k = e.1 := Std.LawfulEqCmp.eq_of_compare hk
      subst this
      exact .cons he hes
    · next hk =>
      refine .cons ?_ ih
      intro d hd
      rcases mem_insertEntry hd with rfl | hd
      · exact Std.OrientedCmp.lt_of_gt hk
      · exact he d hd

def insert (m : SortedMap α β) (k : α) (v : β) : SortedMap α β :=
  ⟨insertEntry k v m.entries, pairwise_insertEntry k v m.sorted⟩

def erase (m : SortedMap α β) (k : α) : SortedMap α β := m.filterKeys (fun x => compare k x != .eq)

def insertAll (m : SortedMap α β) (es : List (α × β)) : SortedMap α β :=
  es.foldl (fun m e => m.insert e.1 e.2) m

def ofList (es : List (α × β)) : SortedMap α β := empty.insertAll es

end SortedMap

end RowForest
