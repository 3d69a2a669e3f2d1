import RowForest.Proofs.Key.Order

namespace List

variable {α : Type} {le : α → α → Bool} {cmp : α → α → Ordering}

theorem takeWhile_append_eq {p : α → Bool} {as bs : List α} (has : ∀ a ∈ as, p a = true)
    (hbs : ∀ b ∈ bs, p b = false) : (as ++ bs).takeWhile p = as := by
  rw [takeWhile_append_of_pos has]
  cases bs with
  | nil => exact append_nil as
  | cons b bs => rw [takeWhile_cons_of_neg (by simp [hbs b mem_cons_self]), append_nil]

/-- Sorting keeps what it does not tell apart in its order, so it does not matter whether elements
are left out before or after. -/
theorem mergeSort_filter (htrans : ∀ a b c, le a b = true → le b c = true → le a c = true)
    (htotal : ∀ a b, (le a b || le b a) = true) (p : α → Bool) (as : List α) :
    (as.filter p).mergeSort le = (as.mergeSort le).filter p := by
  induction as with
  | nil => simp
  | cons a as ih =>
      obtain ⟨l₁, l₂, hcons, happend, hbefore⟩ := mergeSort_cons htrans htotal a as
      have hsorted := pairwise_mergeSort htrans htotal (a :: as)
      rw [hcons, pairwise_append, pairwise_cons] at hsorted
      rw [happend, filter_append] at ih
      cases hp : p a with
      | false =>
          rw [filter_cons_of_neg (by simp [hp]), ih, hcons, filter_append,
            filter_cons_of_neg (by simp [hp])]
      | true =>
          obtain ⟨m₁, m₂, hcons', happend', hbefore'⟩ := mergeSort_cons htrans htotal a (as.filter p)
          have hsorted' := pairwise_mergeSort htrans htotal (a :: as.filter p)
          rw [hcons', pairwise_append, pairwise_cons] at hsorted'
          -- either way the new element goes behind all that it may not stand before
          have hsplit : m₁ ++ m₂ = l₁.filter p ++ l₂.filter p := happend'.symm.trans ih
          have hm₁ : (m₁ ++ m₂).takeWhile (fun b => !le a b) = m₁ :=
            takeWhile_append_eq hbefore' fun b hb => by simp [hsorted'.2.1.1 b hb]
          have hl₁ : (l₁.filter p ++ l₂.filter p).takeWhile (fun b => !le a b) = l₁.filter p :=
            takeWhile_append_eq (fun b hb => hbefore b (mem_filter.1 hb).1)
              fun b hb => by simp [hsorted.2.1.1 b (mem_filter.1 hb).1]
          rw [hsplit, hl₁] at hm₁
          subst hm₁
          rw [filter_cons_of_pos hp, hcons', hcons, filter_append, filter_cons_of_pos hp,
            append_cancel_left hsplit]

theorem mergeSort_filter_of_transCmp [Std.TransCmp cmp] {as : List α}
    (hle : ∀ a ∈ as, ∀ b ∈ as, le a b = (cmp a b).isLE) (p : α → Bool) :
    (as.filter p).mergeSort le = (as.mergeSort le).filter p := by
  have hsort {bs : List α} (hbs : bs ⊆ as) :
      bs.mergeSort le = bs.mergeSort (fun a b => (cmp a b).isLE) := by
    simpa using map_mergeSort (f := id) (l := bs) (s := fun a b => (cmp a b).isLE)
      (fun a ha b hb => hle a (hbs ha) b (hbs hb))
  have htotal (a b : α) : ((cmp a b).isLE || (cmp b a).isLE) = true := by
    have hswap : cmp b a = (cmp a b).swap := Std.OrientedCmp.eq_swap
    rw [hswap]
    cases cmp a b <;> rfl
  rw [hsort filter_sublist.subset, hsort (Subset.refl as)]
  exact mergeSort_filter (fun _ _ _ => Std.TransCmp.isLE_trans) htotal p as

end List

namespace RowForest

open Eval

namespace Value

def NaNFree : Value → Prop
  | array items => ∀ v ∈ items, v.isNaN = false
  | v => v.isNaN = false

theorem naNFree_of_scalar {v : Value} (h : v.Scalar) (hv : v.isNaN = false) : v.NaNFree := by
  cases v with
  | array items => simp at h
  | _ => exact hv

def isDocument (v : Value) : Bool := v.baseType? = some .json

/-- The ranks of the items of an array, as far as they are compared: documents have no order,
and what comes after one does not count. -/
def itemRanks : List Value → List Bytes
  | [] => []
  | v :: vs => KeyFormat.rank v :: if v.isDocument then [] else itemRanks vs

def sortRank : Value → List (List Bytes)
  | null => []
  | array items => [itemRanks items]
  | v => [[KeyFormat.rank v]]

/-- Whether two values are such as one sort key has on two rows. -/
def Sortable (v w : Value) : Prop :=
  v = w ∨ ∃ t : ColumnType, (t.accepts v = true ∧ v.NaNFree) ∧ t.accepts w = true ∧ w.NaNFree

/-- Only two documents have no order, and none of them compares as equal to anything. -/
theorem compare?_cases {v w : Value} (h : v.Comparable w) :
    (v.isDocument = true ∧ w.isDocument = true ∧ v.compare? w = none) ∨
      ∃ o, v.compare? w = some o ∧ (o = .eq → v.isDocument = false ∧ w.isDocument = false) := by
  obtain ⟨⟨hv, hv'⟩, ⟨hw, hw'⟩, hnull | hnull | hbase⟩ := h
  · obtain rfl := isNull_iff.1 hnull
    cases w <;> exact .inr ⟨_, rfl, by simp [isDocument, baseType?]⟩
  · obtain rfl := isNull_iff.1 hnull
    cases v <;> exact .inr ⟨_, rfl, by simp [isDocument, baseType?]⟩
  · cases v with
    | array items => simp at hv
    | struct fields => simp at hv
    | null => cases w <;> exact .inr ⟨_, rfl, by simp [isDocument, baseType?]⟩
    | json s => cases w <;> first | exact .inl ⟨rfl, rfl, rfl⟩ | cases hbase
    | float64 x =>
        cases w with
        | float64 y =>
            have hx : x.isNaN = false := hv'
            have hy : y.isNaN = false := hw'
            refine .inr ⟨compare x.rank y.rank, ?_, by simp [isDocument, baseType?]⟩
            rw [compare?, Binary64.compare?, hx, hy]
            rfl
        | _ => cases hbase
    | _ => cases w <;> first | exact .inr ⟨_, rfl, by simp [isDocument, baseType?]⟩ | cases hbase

theorem compare_itemRanks {vs ws : List Value} (h : ∀ v ∈ vs, ∀ w ∈ ws, v.Comparable w) :
    (compareItems? vs ws).getD .eq = compare (itemRanks vs) (itemRanks ws) := by
  induction vs generalizing ws with
  | nil => cases ws <;> rfl
  | cons v vs ih =>
      cases ws with
      | nil => rfl
      | cons w ws =>
          have hvw := h v List.mem_cons_self w List.mem_cons_self
          have hrank := KeyFormat.compare_rank hvw
          have hrest := ih fun v hv w hw => h v (List.mem_cons_of_mem _ hv) w (List.mem_cons_of_mem _ hw)
          rw [compareItems?, itemRanks, itemRanks, List.compare_cons_cons, ← hrank]
          rcases compare?_cases hvw with ⟨hv, hw, hnone⟩ | ⟨o, ho, heq⟩
          · rw [hnone, hv, hw]
            rfl
          · rw [ho]
            cases o with
            | eq =>
                obtain ⟨hv, hw⟩ := heq rfl
                rw [hv, hw]
                exact hrest
            | lt | gt => rfl

theorem comparable_of_items {t : ColumnType} {vs ws : List Value} (hvs : t.accepts (.array vs) = true)
    (hws : t.accepts (.array ws) = true) (hvs' : (array vs).NaNFree) (hws' : (array ws).NaNFree) :
    ∀ v ∈ vs, ∀ w ∈ ws, v.Comparable w := by
  simp only [ColumnType.accepts, Bool.and_eq_true, List.all_eq_true, Bool.or_eq_true,
    decide_eq_true_eq] at hvs hws
  have scalar {v : Value} (hv : v.isNull = true ∨ v.baseType? = some t.base) : v.Scalar :=
    hv.imp_right fun hbase => by rw [hbase]; rfl
  intro v hv w hw
  refine ⟨⟨scalar (hvs.2 v hv), hvs' v hv⟩, ⟨scalar (hws.2 w hw), hws' w hw⟩, ?_⟩
  rcases hvs.2 v hv with hnull | hbase
  · exact .inl hnull
  · rcases hws.2 w hw with hnull | hbase'
    · exact .inr (.inl hnull)
    · exact .inr (.inr (hbase.trans hbase'.symm))

mutual

theorem compare?_self : ∀ v : Value, (v.compare? v).getD .eq = .eq
  | null => rfl
  | bool b => by simp [compare?]
  | int64 i => by simp [compare?]
  | float64 x => by
    rw [compare?, Binary64.compare?]
    split <;> simp
  | string s => by simp [compare?, compareText]
  | bytes bs => by simp [compare?]
  | date d => by simp [compare?]
  | timestamp t => by simp [compare?, Timestamp.compare]
  | numeric s => by simp [compare?, compareText]
  | json s => rfl
  | array items => by rw [compare?, compareItems?_self items]
  | struct fields => rfl

theorem compareItems?_self : ∀ vs : List Value, (compareItems? vs vs).getD .eq = .eq
  | [] => rfl
  | v :: vs => by
    have hv := compare?_self v
    have hvs := compareItems?_self vs
    rw [compareItems?]
    split <;> simp_all

end

theorem cases_of_accepts {t : ColumnType} {v : Value} (h : t.accepts v = true) : v = .null ∨
    (t.array = true ∧ ∃ items, v = .array items) ∨ t.array = false ∧ v.baseType? = some t.base := by
  cases v with
  | null => exact .inl rfl
  | array items => exact .inr (.inl ⟨(Bool.and_eq_true_iff.1 h).1, items, rfl⟩)
  | _ => exact .inr (.inr (by simpa [ColumnType.accepts] using h))

theorem sortRank_of_baseType {v : Value} {b : BaseType} (h : v.baseType? = some b) :
    sortRank v = [[KeyFormat.rank v]] ∧ v.Scalar ∧ (v.NaNFree → v.isNaN = false) := by
  cases v with
  | null | array items | struct fields => cases h
  | _ => exact ⟨rfl, .inr rfl, id⟩

theorem compare_sortRank {v w : Value} (h : v.Sortable w) :
    (v.compare? w).getD .eq = compare (sortRank v) (sortRank w) := by
  rcases h with rfl | ⟨t, ⟨hv, hv'⟩, hw, hw'⟩
  · rw [compare?_self, Std.ReflOrd.compare_self]
  rcases cases_of_accepts hv with rfl | ⟨harray, vs, rfl⟩ | ⟨hscalar, hbase⟩
  · cases w <;> rfl
  · rcases cases_of_accepts hw with rfl | ⟨-, ws, rfl⟩ | ⟨hscalar, -⟩
    · rfl
    · rw [compare?, compare_itemRanks (comparable_of_items hv hw hv' hw'), sortRank, sortRank,
        List.compare_cons_cons, Std.ReflOrd.compare_self, Ordering.then_eq]
    · cases harray.symm.trans hscalar
  · obtain ⟨hrank, hv, hnumber⟩ := sortRank_of_baseType hbase
    rcases cases_of_accepts hw with rfl | ⟨harray, -⟩ | ⟨-, hbase'⟩
    · rw [hrank]
      cases v <;> first | rfl | cases hbase
    · cases harray.symm.trans hscalar
    · obtain ⟨hrank', hw, hnumber'⟩ := sortRank_of_baseType hbase'
      have hcomparable : v.Comparable w :=
        ⟨⟨hv, hnumber hv'⟩, ⟨hw, hnumber' hw'⟩, .inr (.inr (hbase.trans hbase'.symm))⟩
      rw [KeyFormat.compare_rank hcomparable, hrank, hrank']
      simp [List.compare_cons_cons]

end Value

namespace Eval

variable {sc : Scope} {table : String} {order : List Sql.Order} {rows sorted : List Row}

def keyOrder (o : Sql.Order) (vs ws : List Value) : Ordering :=
  if o.desc then Ord.compare (ws.headD .null).sortRank (vs.headD .null).sortRank
  else Ord.compare (vs.headD .null).sortRank (ws.headD .null).sortRank

def keysOrder : List Sql.Order → List Value → List Value → Ordering
  | [], _, _ => .eq
  | o :: os, vs, ws => (keyOrder o vs ws).then (keysOrder os vs.tail ws.tail)

instance (o : Sql.Order) : Std.TransCmp (keyOrder o) := by
  obtain ⟨e, desc⟩ := o
  have hforth : Std.TransCmp (compareOn (fun vs : List Value => (vs.headD .null).sortRank)) :=
    inferInstance
  cases desc with
  | false => exact hforth
  | true => exact inferInstanceAs
      (Std.TransCmp (fun a b => compareOn (fun vs : List Value => (vs.headD .null).sortRank) b a))

instance (os : List Sql.Order) : Std.TransCmp (keysOrder os) := by
  induction os with
  | nil => exact { eq_swap := rfl, isLE_trans := fun _ _ => rfl }
  | cons o os ih =>
      have htail : Std.TransCmp (fun vs ws : List Value => keysOrder os vs.tail ws.tail) :=
        { eq_swap := ih.eq_swap, isLE_trans := ih.isLE_trans }
      exact inferInstanceAs (Std.TransCmp (compareLex (keyOrder o)
        (fun vs ws : List Value => keysOrder os vs.tail ws.tail)))

theorem compareKeys_eq_keysOrder {vs ws : List Value} (h : List.Forall₂ Value.Sortable vs ws)
    (hlength : vs.length = order.length) : compareKeys order vs ws = keysOrder order vs ws := by
  induction h generalizing order with
  | nil =>
      obtain rfl := List.length_eq_zero_iff.1 hlength.symm
      simp [compareKeys, keysOrder]
  | @cons v w vs ws hvw hrest ih =>
      cases order with
      | nil => cases hlength
      | cons o os =>
          have hfirst := Value.compare_sortRank hvw
          have hback : Ord.compare w.sortRank v.sortRank = ((v.compare? w).getD .eq).swap := by
            rw [hfirst, ← Std.OrientedOrd.eq_swap]
          rw [compareKeys, ih (by simpa using hlength), keysOrder, keyOrder]
          simp only [List.headD_cons, List.tail_cons, ← hfirst, hback]
          cases v.compare? w with
          | none => cases o.desc <;> rfl
          | some c => cases c <;> cases o.desc <;> rfl

theorem sortKeys_eq_ok {vs : List Value} : sortKeys sc order = .ok vs ↔
    List.Forall₂ (fun o v => evalIn sc o.key = .ok v) order vs := by
  induction order generalizing vs with
  | nil => simp [sortKeys, eq_comm]
  | cons o os ih =>
      simp only [sortKeys, Except.bind_eq_ok, ih, Except.pure_ok, Except.ok.injEq,
        List.forall₂_cons_left_iff]
      constructor
      · rintro ⟨v, hv, vs, hvs, rfl⟩
        exact ⟨v, vs, hv, hvs, rfl⟩
      · rintro ⟨v, vs, hv, hvs, rfl⟩
        exact ⟨v, hv, vs, hvs, rfl⟩

theorem withKeys_filter {keyed : List (List Value × Row)} (h : withKeys sc table order rows = .ok keyed)
    (p : Row → Bool) :
    withKeys sc table order (rows.filter p) = .ok (keyed.filter (fun e => p e.2)) := by
  induction rows generalizing keyed with
  | nil =>
      cases h
      rfl
  | cons r rows ih =>
      simp only [withKeys, Except.bind_eq_ok, Except.pure_ok, Except.ok.injEq] at h
      obtain ⟨ks, hks, rest, hrest, rfl⟩ := h
      rw [List.filter_cons, List.filter_cons]
      cases p r with
      | true =>
          rw [if_pos rfl, if_pos rfl, withKeys, hks, ih hrest]
          rfl
      | false => exact ih hrest

theorem of_mem_withKeys {keyed : List (List Value × Row)} (h : withKeys sc table order rows = .ok keyed)
    {e : List Value × Row} (he : e ∈ keyed) :
    e.2 ∈ rows ∧ sortKeys (sc.push table e.2) order = .ok e.1 := by
  induction rows generalizing keyed with
  | nil =>
      cases h
      cases he
  | cons r rows ih =>
      simp only [withKeys, Except.bind_eq_ok, Except.pure_ok, Except.ok.injEq] at h
      obtain ⟨ks, hks, rest, hrest, rfl⟩ := h
      rcases List.mem_cons.1 he with rfl | he
      · exact ⟨List.mem_cons_self, hks⟩
      · exact (ih hrest he).imp_left (List.mem_cons_of_mem _)

def KeysSortable (sc : Scope) (table : String) (order : List Sql.Order) (a b : Row) : Prop :=
  ∀ o ∈ order, ∀ v w, evalIn (sc.push table a) o.key = .ok v → evalIn (sc.push table b) o.key = .ok w →
    v.Sortable w

theorem KeysSortable.forall₂ {a b : Row} (h : KeysSortable sc table order a b) {vs ws : List Value}
    (hvs : sortKeys (sc.push table a) order = .ok vs) (hws : sortKeys (sc.push table b) order = .ok ws) :
    List.Forall₂ Value.Sortable vs ws ∧ vs.length = order.length := by
  rw [sortKeys_eq_ok] at hvs hws
  refine ⟨?_, hvs.length_eq.symm⟩
  induction hvs generalizing ws with
  | nil =>
      cases hws
      exact .nil
  | cons hv _ ih =>
      obtain ⟨w, ws, hw, hrest, rfl⟩ := List.forall₂_cons_left_iff.1 hws
      exact .cons (h _ List.mem_cons_self _ _ hv hw)
        (ih (fun o ho => h o (List.mem_cons_of_mem _ ho)) hrest)

/-- It does not matter whether rows are left out before they are sorted or after. -/
theorem sortRows_filter (hrows : ∀ a ∈ rows, ∀ b ∈ rows, KeysSortable sc table order a b)
    (h : sortRows sc table order rows = .ok sorted) (p : Row → Bool) :
    sortRows sc table order (rows.filter p) = .ok (sorted.filter p) := by
  unfold sortRows at h ⊢
  split at h
  · cases h
    rw [if_pos ‹_›]
  · simp only [Except.bind_eq_ok, Except.pure_ok, Except.ok.injEq] at h
    obtain ⟨keyed, hkeyed, rfl⟩ := h
    have hle : ∀ a ∈ keyed, ∀ b ∈ keyed, (compareKeys order a.1 b.1).isLE =
        (keysOrder order a.1 b.1).isLE := by
      intro a ha b hb
      obtain ⟨ha, hvs⟩ := of_mem_withKeys hkeyed ha
      obtain ⟨hb, hws⟩ := of_mem_withKeys hkeyed hb
      obtain ⟨hsortable, hlength⟩ := (hrows _ ha _ hb).forall₂ hvs hws
      rw [compareKeys_eq_keysOrder hsortable hlength]
    have htrans : Std.TransCmp (fun a b : List Value × Row => keysOrder order a.1 b.1) :=
      { eq_swap := Std.OrientedCmp.eq_swap, isLE_trans := Std.TransCmp.isLE_trans }
    rw [if_neg ‹_›, withKeys_filter hkeyed, Except.ok_bind, Except.pure_ok,
      List.mergeSort_filter_of_transCmp hle, List.filter_map]
    rfl

end Eval

end RowForest
