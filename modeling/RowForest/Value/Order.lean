import RowForest.Value.Basic
import RowForest.Text.Utf8

namespace RowForest.Value

def compareText (s t : String) : Ordering := compare (Utf8.encode s) (Utf8.encode t)

mutual

/-- The order of `ORDER BY` and of comparisons, nulls first. Integers meet floats as
the nearest float, arrays go item by item, and values of different kinds, documents
and structs have no order. -/
def compare? : Value → Value → Option Ordering
  | null, null => some .eq
  | null, _ => some .lt
  | _, null => some .gt
  | bool a, bool b => some (compare a b)
  | int64 a, int64 b => some (compare a.toInt b.toInt)
  | int64 a, float64 b => (Binary64.ofInt a).compare? b
  | float64 a, int64 b => a.compare? (Binary64.ofInt b)
  | float64 a, float64 b => a.compare? b
  | string a, string b => some (compareText a b)
  | bytes a, bytes b => some (compare a b)
  | date a, date b => some (compare a.days b.days)
  | timestamp a, timestamp b => some (a.compare b)
  | numeric a, numeric b => some (compareText a b)
  | array as, array bs => compareItems? as bs
  | _, _ => none
termination_by structural x => x

def compareItems? : List Value → List Value → Option Ordering
  | [], [] => some .eq
  | [], _ :: _ => some .lt
  | _ :: _, [] => some .gt
  | a :: as, b :: bs =>
    match a.compare? b with
    | some .eq => compareItems? as bs
    | o => o
termination_by structural x => x

end

end RowForest.Value
