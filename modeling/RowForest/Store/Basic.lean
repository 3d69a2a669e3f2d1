import RowForest.Bytes
import RowForest.SortedMap

namespace RowForest

abbrev Store := SortedMap Bytes Bytes

/-- Staged writes by key; no value where the key is to be deleted. -/
abbrev Batch := SortedMap Bytes (Option Bytes)

namespace Bytes

/-- The end of the range of keys that start with `p`: `p` without its trailing `0xff`
bytes and the byte before them raised by one. Nothing ends the range of a key of `0xff` alone. -/
def rangeEnd (p : Bytes) : Option Bytes :=
  match p.reverse.dropWhile (· = 0xff) with
  | [] => none
  | b :: bs => some (bs.reverse ++ [b + 1])

def inRange (p k : Bytes) : Bool :=
  (compare p k).isLE && (p.rangeEnd.all (fun e => compare k e = .lt))

end Bytes

def SortedMap.scan {β : Type} (m : SortedMap Bytes β) (p : Bytes) : SortedMap Bytes β :=
  m.filterKeys (Bytes.inRange p)

namespace Store

def writeOne (s : Store) (e : Bytes × Option Bytes) : Store :=
  match e.2 with
  | some v => s.insert e.1 v
  | none => s.erase e.1

def write (s : Store) (b : Batch) : Store := b.entries.foldl writeOne s

end Store

/-- A store seen through the writes staged on top of it. -/
structure Staging where
  store : Store
  batch : Batch

namespace Staging

def ofStore (s : Store) : Staging := ⟨s, .empty⟩

def get? (s : Staging) (k : Bytes) : Option Bytes :=
  match s.batch.find? k with
  | some staged => staged
  | none => s.store.find? k

def scan (s : Staging) (p : Bytes) : Store := Store.write (s.store.scan p) (s.batch.scan p)

def put (s : Staging) (k v : Bytes) : Staging := { s with batch := s.batch.insert k (some v) }

def delete (s : Staging) (k : Bytes) : Staging := { s with batch := s.batch.insert k none }

def commit (s : Staging) : Store := Store.write s.store s.batch

end Staging

end RowForest
