import RowForest.Bytes
import RowForest.Binary64
import RowForest.Calendar.Timestamp
import RowForest.SortedMap

namespace RowForest

inductive BaseType
  | bool
  | int64
  | float64
  | string
  | bytes
  | date
  | timestamp
  | numeric
  | json
deriving DecidableEq

/-- A column value. Numerics and JSON documents are kept as the text they were written
in. A struct is a nested row: its columns in order, no name twice. -/
inductive Value
  | null
  | bool (b : Bool)
  | int64 (i : Int64)
  | float64 (x : Binary64)
  | string (s : String)
  | bytes (bs : Bytes)
  | date (d : Date)
  | timestamp (t : Timestamp)
  | numeric (s : String)
  | json (s : String)
  | array (items : List Value)
  | struct (fields : List (String × Value))

namespace Value

def baseType? : Value → Option BaseType
  | bool _ => some .bool
  | int64 _ => some .int64
  | float64 _ => some .float64
  | string _ => some .string
  | bytes _ => some .bytes
  | date _ => some .date
  | timestamp _ => some .timestamp
  | numeric _ => some .numeric
  | json _ => some .json
  | null | array _ | struct _ => none

def isNull : Value → Bool
  | null => true
  | _ => false

def asBool? : Value → Option Bool
  | bool b => some b
  | _ => none

def asInt64? : Value → Option Int64
  | int64 i => some i
  | _ => none

def asString? : Value → Option String
  | string s => some s
  | _ => none

mutual

/-- Equality of values. Floats are equal when their bits are, and structs when
they hold equal values in the same columns, in any order. -/
def equal : Value → Value → Bool
  | null, null => true
  | bool a, bool b => a = b
  | int64 a, int64 b => a = b
  | float64 a, float64 b => a = b
  | string a, string b => a = b
  | bytes a, bytes b => a = b
  | date a, date b => a = b
  | timestamp a, timestamp b => a = b
  | numeric a, numeric b => a = b
  | json a, json b => a = b
  | array as, array bs => equalItems as bs
  | struct fs, struct gs => fs.length = gs.length && fieldsWithin fs gs
  | _, _ => false
termination_by structural x => x

def equalItems : List Value → List Value → Bool
  | [], [] => true
  | a :: as, b :: bs => a.equal b && equalItems as bs
  | _, _ => false
termination_by structural x => x

def fieldsWithin : List (String × Value) → List (String × Value) → Bool
  | [], _ => true
  | (c, v) :: fs, gs => (gs.lookup c).any v.equal && fieldsWithin fs gs
termination_by structural x => x

end

mutual

def same : Value → Value → Bool
  | null, null => true
  | bool a, bool b => a = b
  | int64 a, int64 b => a = b
  | float64 a, float64 b => a = b
  | string a, string b => a = b
  | bytes a, bytes b => a = b
  | date a, date b => a = b
  | timestamp a, timestamp b => a = b
  | numeric a, numeric b => a = b
  | json a, json b => a = b
  | array as, array bs => sameItems as bs
  | struct fs, struct gs => sameFields fs gs
  | _, _ => false
termination_by structural x => x

def sameItems : List Value → List Value → Bool
  | [], [] => true
  | a :: as, b :: bs => a.same b && sameItems as bs
  | _, _ => false
termination_by structural x => x

def sameFields : List (String × Value) → List (String × Value) → Bool
  | [], [] => true
  | (c, v) :: fs, (d, w) :: gs => c = d && v.same w && sameFields fs gs
  | _, _ => false
termination_by structural x => x

end

mutual

theorem same_iff : ∀ {v w : Value}, v.same w = true ↔ v = w
  | array as, w => by cases w <;> simp [same, @sameItems_iff as]
  | struct fs, w => by cases w <;> simp [same, @sameFields_iff fs]
  | null, w | bool _, w | int64 _, w | float64 _, w | string _, w | bytes _, w | date _, w
  | timestamp _, w | numeric _, w | json _, w => by cases w <;> simp [same]

theorem sameItems_iff : ∀ {as bs : List Value}, sameItems as bs = true ↔ as = bs
  | [], bs => by cases bs <;> simp [sameItems]
  | a :: as, bs => by
    cases bs with
    | nil => simp [sameItems]
    | cons b bs => simp [sameItems, @same_iff a, @sameItems_iff as]

theorem sameFields_iff : ∀ {fs gs : List (String × Value)}, sameFields fs gs = true ↔ fs = gs
  | [], gs => by cases gs <;> simp [sameFields]
  | (c, v) :: fs, gs => by
    cases gs with
    | nil => simp [sameFields]
    | cons g gs =>
      obtain ⟨d, w⟩ := g
      simp [sameFields, @same_iff v, @sameFields_iff fs]

end

instance : DecidableEq Value := fun _ _ => decidable_of_iff _ same_iff

end Value

abbrev Params := SortedMap String Value

end RowForest
