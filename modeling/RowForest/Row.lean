import RowForest.Value.Printer

namespace RowForest

namespace Fields

def put {α : Type} (c : String) (a : α) : List (String × α) → List (String × α)
  | [] => [(c, a)]
  | f :: fs => if f.1 = c then (c, a) :: fs else f :: put c a fs

theorem names_put {α : Type} (c : String) (a : α) (fs : List (String × α)) :
    (put c a fs).map Prod.fst =
      if c ∈ fs.map Prod.fst then fs.map Prod.fst else fs.map Prod.fst ++ [c] := by
  induction fs with
  | nil => simp [put]
  | cons f fs ih =>
    by_cases h : f.1 = c
    · simp [put, h]
    · have h' : c ≠ f.1 := fun e => h e.symm
      simp only [put, h, if_false, List.map_cons, List.mem_cons, h', false_or, ih]
      split <;> simp

theorem nodup_put {α : Type} (c : String) (a : α) {fs : List (String × α)}
    (h : (fs.map Prod.fst).Nodup) : ((put c a fs).map Prod.fst).Nodup := by
  rw [names_put]
  split
  · exact h
  · next hc => exact List.nodup_append.2 ⟨h, by simp, by intro a ha b hb; simp at hb; grind⟩

end Fields

/-- Values by column name, in order, no name twice. -/
structure Row where
  fields : List (String × Value)
  distinct : (fields.map Prod.fst).Nodup
deriving DecidableEq

namespace Row

def empty : Row := ⟨[], .nil⟩

def set (r : Row) (c : String) (v : Value) : Row :=
  ⟨Fields.put c v r.fields, Fields.nodup_put c v r.distinct⟩

def ofFields (fs : List (String × Value)) : Row := fs.foldl (fun r f => r.set f.1 f.2) empty

def get? (r : Row) (c : String) : Option Value := r.fields.lookup c

def get (r : Row) (c : String) : Value := (r.get? c).getD .null

def columns (r : Row) : List String := r.fields.map Prod.fst

def project (r : Row) (cs : List String) : Row := ofFields (cs.map (fun c => (c, r.get c)))

def merge (r s : Row) : Row := s.fields.foldl (fun r f => r.set f.1 f.2) r

def toValue (r : Row) : Value := .struct r.fields

def equal (r s : Row) : Bool := r.toValue.equal s.toValue

def text (r : Row) : String := r.toValue.text

end Row

end RowForest
