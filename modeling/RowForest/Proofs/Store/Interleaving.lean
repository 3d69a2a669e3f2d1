import RowForest.Proofs.Store.Matching
import Mathlib.Logic.Relation

namespace RowForest

open Relation (ReflTransGen)

def Table.Refuses (t : Table) : Prop := t.interleave.map Interleave.onDelete = some .noAction

namespace RowStore

/-- Whether one stored row is directly interleaved in another: its table is so in the other's
table, and its key begins with the other's key. -/
structure Interleaved (rs : RowStore) (p c : Table × Row) : Prop where
  table : p.1 ∈ rs.db.tables
  parent : p.2 ∈ rs.stored p.1
  child : c.1 ∈ rs.db.children p.1.name
  stored : c.2 ∈ rs.stored c.1
  starts : (Key.ofRow p.1 p.2).values <+: (Key.ofRow c.1 c.2).values

def Picked (rs : RowStore) (t : Table) (keys : KeySet) (x : Table × Row) : Prop :=
  x.1 = t ∧ x.2 ∈ rs.stored t ∧ keys.contains (Key.ofRow t x.2) = true

/-- The rows that go with a key set: its own, and with each row those interleaved in it. -/
inductive Doomed (rs : RowStore) (t : Table) (keys : KeySet) : Table × Row → Prop
  | picked {x : Table × Row} : rs.Picked t keys x → Doomed rs t keys x
  | interleaved {p c : Table × Row} :
      Doomed rs t keys p → rs.Interleaved p c → Doomed rs t keys c

/-- Whether a row that is to go has rows in a table that refuses to lose them. -/
def Refused (rs : RowStore) (t : Table) (keys : KeySet) : Prop :=
  ∃ p c, rs.Doomed t keys p ∧ rs.Interleaved p c ∧ c.1.Refuses

/-- Whether no stored row is without its parent row. -/
def Rooted (rs : RowStore) : Prop :=
  ∀ p ∈ rs.db.tables, ∀ c ∈ rs.db.children p.name, ∀ r ∈ rs.stored c,
    ∃ q, rs.Interleaved (p, q) (c, r)

structure At (rs : RowStore) (x : Table × Row) (k : Bytes) : Prop where
  table : x.1 ∈ rs.db.tables
  stored : x.2 ∈ rs.stored x.1
  key : x.1.storedKey (Key.ofRow x.1 x.2) = .ok k

variable {rs : RowStore} {a b x y z : Table × Row} {k : Bytes}

theorem At.unique (h : rs.Reachable) (hx : rs.At x k) (hy : rs.At y k) : x = y := by
  obtain ⟨t, r⟩ := x
  obtain ⟨u, s⟩ := y
  obtain ⟨htable, hkey⟩ := h.wellFormed.storedKey_injective hx.table hy.table hx.key hy.key
  dsimp only at htable hkey
  subst htable
  exact congrArg _ (List.inj_on_of_nodup_map (stored_keys_nodup h hx.table) hx.stored hy.stored hkey)

theorem exists_at (h : rs.Reachable) (htable : x.1 ∈ rs.db.tables) (hstored : x.2 ∈ rs.stored x.1) :
    ∃ k, rs.At x k := by
  obtain ⟨k, hk⟩ := storedKey_of_mem_stored h htable hstored
  exact ⟨k, htable, hstored, hk⟩

theorem at_of_entryRow? (h : rs.Reachable) {t : Table} (ht : t ∈ rs.db.tables) {e : Bytes × Bytes}
    (he : e ∈ rs.store.entries) {r : Row} (hr : t.entryRow? e = some r) : rs.At (t, r) e.1 :=
  ⟨ht, List.mem_filterMap.2 ⟨e, he, hr⟩, ((entryRow?_eq_some h ht he).1 hr).2.2⟩

theorem At.entryRow? (h : rs.Reachable) (hx : rs.At x k) :
    ∃ v, (k, v) ∈ rs.store.entries ∧ x.1.entryRow? (k, v) = some x.2 := by
  obtain ⟨⟨l, v⟩, he, hholds, hstore, hkey⟩ := (mem_stored h hx.table).1 hx.stored
  have hlk := hkey
  rw [hx.key] at hlk
  cases hlk
  exact ⟨v, he, (entryRow?_eq_some h hx.table he).2 ⟨hholds, hstore, hkey⟩⟩

theorem Interleaved.child_table (hi : rs.Interleaved x z) : z.1 ∈ rs.db.tables :=
  (List.mem_filter.1 hi.child).1

theorem Interleaved.left_unique (h : rs.Reachable) (hx : rs.Interleaved x z) (hy : rs.Interleaved y z) :
    x = y := by
  obtain ⟨t, r⟩ := x
  obtain ⟨u, s⟩ := y
  have hname : t.name = u.name := by
    have hp := (List.mem_filter.1 hx.child).2
    have hq := (List.mem_filter.1 hy.child).2
    simp only [decide_eq_true_eq] at hp hq
    exact Option.some.inj (hp.symm.trans hq)
  obtain rfl := h.wellFormed.eq_of_name hx.table hy.table hname
  have hlength : (Key.ofRow t r).values.length = (Key.ofRow t s).values.length :=
    (t.length_ofRow r).trans (t.length_ofRow s).symm
  have hkey := (List.prefix_of_prefix_length_le hx.starts hy.starts hlength.le).eq_of_length hlength
  exact congrArg _ (List.inj_on_of_nodup_map (stored_keys_nodup h hx.table) hx.parent hy.parent
    (congrArg Key.mk hkey))

theorem Interleaved.position_lt (h : rs.Reachable) (hi : rs.Interleaved x z) :
    rs.db.position x.1.name < rs.db.position z.1.name :=
  (h.wellFormed.position_lt_of_child hi.child).1

theorem position_le_of_reach (h : rs.Reachable) (hab : ReflTransGen rs.Interleaved a b) :
    rs.db.position a.1.name ≤ rs.db.position b.1.name := by
  induction hab with
  | refl => exact Nat.le_refl _
  | tail _ hi ih => exact ih.trans (hi.position_lt h).le

/-- Of two rows above a third one, one is above the other. -/
theorem reach_total (h : rs.Reachable) (ha : ReflTransGen rs.Interleaved a z)
    (hb : ReflTransGen rs.Interleaved b z) :
    ReflTransGen rs.Interleaved a b ∨ ReflTransGen rs.Interleaved b a := by
  have hunique : Relator.RightUnique (Function.swap rs.Interleaved) :=
    fun _ _ _ hx hy => Interleaved.left_unique h hx hy
  have htotal := ReflTransGen.total_of_right_unique hunique
    (Relation.reflTransGen_swap.2 ha) (Relation.reflTransGen_swap.2 hb)
  exact htotal.symm.imp Relation.reflTransGen_swap.1 Relation.reflTransGen_swap.1

theorem eq_of_reach_of_table (h : rs.Reachable) (htable : a.1 = b.1)
    (hab : ReflTransGen rs.Interleaved a b) : a = b := by
  rcases hab.cases_head with rfl | ⟨c, hac, hcb⟩
  · rfl
  · have hlt := hac.position_lt h
    have hle := position_le_of_reach h hcb
    rw [htable] at hlt
    omega

theorem eq_of_reach_of_parent (h : rs.Reachable) (ha : rs.Interleaved x a) (hb : rs.Interleaved x b)
    (hab : ReflTransGen rs.Interleaved a b) : a = b := by
  rcases hab.cases_tail with rfl | ⟨c, hac, hcb⟩
  · rfl
  · obtain rfl := Interleaved.left_unique h hcb hb
    have hlt := ha.position_lt h
    have hle := position_le_of_reach h hac
    omega

def Covers (rs : RowStore) (x : Table × Row) (k : Bytes) : Prop :=
  ∃ y, ReflTransGen rs.Interleaved x y ∧ rs.At y k

def Blocked (rs : RowStore) (x : Table × Row) : Prop :=
  ∃ y z, ReflTransGen rs.Interleaved x y ∧ rs.Interleaved y z ∧ z.1.Refuses

def Separate (rs : RowStore) (N : Table × Row → Prop) : Prop :=
  ∀ a b y, N a → N b → ReflTransGen rs.Interleaved a y → ReflTransGen rs.Interleaved b y → a = b

theorem separate_table (h : rs.Reachable) {N : Table × Row → Prop} {t : Table} (hN : ∀ z, N z → z.1 = t) :
    rs.Separate N := by
  intro a b y ha hb hay hby
  have htable : a.1 = b.1 := (hN a ha).trans (hN b hb).symm
  rcases reach_total h hay hby with hab | hba
  · exact eq_of_reach_of_table h htable hab
  · exact (eq_of_reach_of_table h htable.symm hba).symm

theorem separate_children (h : rs.Reachable) (x : Table × Row) : rs.Separate (rs.Interleaved x) := by
  intro a b y ha hb hay hby
  rcases reach_total h hay hby with hab | hba
  · exact eq_of_reach_of_parent h ha hb hab
  · exact (eq_of_reach_of_parent h hb ha hba).symm

theorem covers_iff {l : Bytes} (hx : rs.At x l) :
    rs.Covers x k ↔ k = l ∨ ∃ z, rs.Interleaved x z ∧ rs.Covers z k := by
  constructor
  · rintro ⟨y, hxy, hy⟩
    rcases hxy.cases_head with rfl | ⟨z, hxz, hzy⟩
    · have hkey := hy.key
      rw [hx.key] at hkey
      exact .inl (Except.ok.inj hkey).symm
    · exact .inr ⟨z, hxz, y, hzy, hy⟩
  · rintro (rfl | ⟨z, hxz, y, hzy, hy⟩)
    · exact ⟨x, .refl, hx⟩
    · exact ⟨y, .head hxz hzy, hy⟩

theorem blocked_iff : rs.Blocked x ↔ ∃ z, rs.Interleaved x z ∧ (z.1.Refuses ∨ rs.Blocked z) := by
  constructor
  · rintro ⟨y, z, hxy, hyz, hz⟩
    rcases hxy.cases_head with rfl | ⟨w, hxw, hwy⟩
    · exact ⟨z, hyz, .inl hz⟩
    · exact ⟨w, hxw, .inr ⟨y, z, hwy, hyz, hz⟩⟩
  · rintro ⟨z, hxz, hz | ⟨y, w, hzy, hyw, hw⟩⟩
    · exact ⟨x, z, .refl, hxz, hz⟩
    · exact ⟨y, w, .head hxz hzy, hyw, hw⟩

variable {t : Table} {keys : KeySet}

theorem doomed_iff :
    rs.Doomed t keys y ↔ ∃ x, rs.Picked t keys x ∧ ReflTransGen rs.Interleaved x y := by
  constructor
  · intro hy
    induction hy with
    | picked hx => exact ⟨_, hx, .refl⟩
    | interleaved _ hi ih =>
        obtain ⟨x, hx, hreach⟩ := ih
        exact ⟨x, hx, hreach.tail hi⟩
  · rintro ⟨x, hx, hreach⟩
    induction hreach with
    | refl => exact .picked hx
    | tail _ hi ih => exact .interleaved ih hi

theorem refused_iff : rs.Refused t keys ↔ ∃ x, rs.Picked t keys x ∧ rs.Blocked x := by
  constructor
  · rintro ⟨p, c, hp, hi, hc⟩
    obtain ⟨x, hx, hreach⟩ := doomed_iff.1 hp
    exact ⟨x, hx, p, c, hreach, hi, hc⟩
  · rintro ⟨x, hx, p, c, hreach, hi, hc⟩
    exact ⟨p, c, doomed_iff.2 ⟨x, hx, hreach⟩, hi, hc⟩

theorem exists_doomed_at :
    (∃ y, rs.Doomed t keys y ∧ rs.At y k) ↔ ∃ x, rs.Picked t keys x ∧ rs.Covers x k := by
  constructor
  · rintro ⟨y, hy, hk⟩
    obtain ⟨x, hx, hreach⟩ := doomed_iff.1 hy
    exact ⟨x, hx, y, hreach, hk⟩
  · rintro ⟨x, hx, y, hreach, hk⟩
    exact ⟨y, doomed_iff.2 ⟨x, hx, hreach⟩, hk⟩

end RowStore

end RowForest
