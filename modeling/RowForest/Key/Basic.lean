import RowForest.Row
import RowForest.Schema.Table

namespace RowForest

/-- The values of a row's key columns, in key order, or the leading ones of them. -/
structure Key where
  values : List Value
deriving DecidableEq

namespace Key

def ofRow (t : Table) (r : Row) : Key := ⟨t.keyColumns.map r.get⟩

def length (k : Key) : Nat := k.values.length

def leading (k : Key) (n : Nat) : Key := ⟨k.values.take n⟩

def parentKey (k : Key) (parent : Table) : Key := k.leading parent.primaryKey.length

def equal (k l : Key) : Bool := Value.equalItems k.values l.values

def startsWith (k l : Key) : Bool := l.length ≤ k.length && (k.leading l.length).equal l

/-- A key that counts only up to its first invalid part. The first part is always valid,
and values past the primary key or past the flags are not. -/
def ofValid (t : Table) (values : List Value) (valid : List Bool) : Key :=
  match values.take t.primaryKey.length with
  | [] => ⟨[]⟩
  | v :: vs => ⟨v :: ((vs.zip valid.tail).takeWhile Prod.snd).map Prod.fst⟩

def text (k : Key) : String := "(" ++ commaSeparated (Value.itemTexts k.values) ++ ")"

end Key

end RowForest
