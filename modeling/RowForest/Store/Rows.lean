import RowForest.Eval.Rows
import RowForest.Key.KeySet
import RowForest.Store.Basic

namespace RowForest

inductive Mutation
  | insert (table : String) (r : Row)
  | update (table : String) (r : Row)
  | upsert (table : String) (r : Row)
  | delete (table : String) (keys : KeySet)

def Mutation.table : Mutation → String
  | insert t _ | update t _ | upsert t _ | delete t _ => t

def Table.storedKey (t : Table) (k : Key) : Except Error Bytes :=
  (KeyFormat.encode t.name (k.values.zip (t.primaryKey.map KeyPart.desc))).mapError .keyFormat

def decodeRow (bs : Bytes) : Except Error Row := (RowFormat.decode bs).mapError .rowFormat

namespace Staging

def lookupKey (s : Staging) (t : Table) (k : Key) : Except Error Store :=
  if k.length = t.primaryKey.length then do
    let bs ← t.storedKey k
    return match s.get? bs with
      | some v => SortedMap.empty.insert bs v
      | none => .empty
  else .error (.keyLength t.name k)

def lookupKeys (s : Staging) (t : Table) : List Key → Except Error Store
  | [] => .ok .empty
  | k :: ks => do
    let found ← s.lookupKey t k
    let rest ← lookupKeys s t ks
    return found.insertAll rest.toList

mutual

def lookup (s : Staging) (t : Table) : KeySet → Except Error Store
  | .single k => s.lookupKey t k
  | .list ks => s.lookupKeys t ks
  | .under k => do return s.scan (← t.storedKey k)
  | .union sets => lookupAll s t sets
termination_by structural x => x

def lookupAll (s : Staging) (t : Table) : List KeySet → Except Error Store
  | [] => .ok .empty
  | set :: sets => do
    let found ← lookup s t set
    let rest ← lookupAll s t sets
    return found.insertAll rest.toList
termination_by structural x => x

end

end Staging

/-- Rows of the tables of a schema. Each is stored under its table's name and its primary
key, so the rows interleaved in a row are one range of keys. -/
structure RowStore where
  db : Database
  store : Store

namespace Table

def fill (t : Table) (r : Row) : List Column → Row → Except Error Row
  | [], out => .ok out
  | c :: cs, out =>
    let v := r.get c.name
    if v.isNull && c.notNull then .error (.write (.null c.name))
    else if c.type.accepts v then fill t r cs (out.set c.name v)
    else .error (.write (.typeMismatch c.name c.type v))

def storedRow (t : Table) (r : Row) : Except Error Row :=
  match r.columns.find? (fun c => !t.hasColumn c) with
  | some column => .error (.write (.unknownColumn t.name column))
  | none => t.fill r t.columns .empty

end Table

namespace Staging

def putRow (s : Staging) (k : Bytes) (r : Row) : Except Error Staging := do
  let bs ← (RowFormat.store r).mapError .rowFormat
  return s.put k bs

def insertRow (s : Staging) (t : Table) (r : Row) : Except Error Staging := do
  let r ← t.storedRow r
  let k := Key.ofRow t r
  let bs ← t.storedKey k
  if (s.get? bs).isSome then .error (.write (.present t.name k)) else s.putRow bs r

def mergeRow (s : Staging) (t : Table) (mustExist : Bool) (r : Row) : Except Error Staging := do
  let k := Key.ofRow t r
  let bs ← t.storedKey k
  let merged ← match s.get? bs with
    | some stored => (decodeRow stored).map (·.merge r)
    | none => if mustExist then .error (.write (.absent t.name k)) else .ok r
  s.putRow bs (← t.storedRow merged)

/-- Deletes a row and what is interleaved in it, with at most `depth` levels of tables
below. Tables without cascade refuse to lose a row's children. -/
def removeRow (db : Database) : Nat → Staging → Table → Bytes → Except Error Staging
  | 0, s, _, bs => .ok (s.delete bs)
  | depth + 1, s, t, bs =>
    match s.get? bs with
    | none => .ok s
    | some stored => do
      let k := Key.ofRow t (← decodeRow stored)
      let s ← (db.children t.name).foldlM
        (fun s child => do
          let found := s.scan (← child.storedKey k)
          if found.isEmpty then return s
          else if child.interleave.any (·.onDelete = .cascade) then
            found.keys.foldlM (fun s bs => removeRow db depth s child bs) s
          else .error (.write (.hasRows t.name k child.name)))
        s
      return s.delete bs

def applyOne (db : Database) (s : Staging) (m : Mutation) : Except Error Staging := do
  let t ← db.getTable m.table
  match m with
  | .insert _ r => s.insertRow t r
  | .update _ r => s.mergeRow t true r
  | .upsert _ r => s.mergeRow t false r
  | .delete _ keys => do
    let found ← s.lookup t keys
    found.keys.foldlM (fun s bs => removeRow db (db.tables.length + 1) s t bs) s

end Staging

namespace RowStore

def ofDatabase (db : Database) : RowStore := ⟨db, .empty⟩

/-- Carries out mutations in order, all of them or, from the first that fails, none. -/
def apply (rs : RowStore) (ms : List Mutation) : Except Error RowStore := do
  let s ← ms.foldlM (Staging.applyOne rs.db) (.ofStore rs.store)
  return { rs with store := s.commit }

/-- The rows after a write and how it ended. One that fails leaves the rows as they are. -/
def write (rs : RowStore) (ms : List Mutation) : RowStore × Except Error Unit :=
  match rs.apply ms with
  | .ok rs' => (rs', .ok ())
  | .error e => (rs, .error e)

def writeAll (rs : RowStore) (writes : List (List Mutation)) : RowStore :=
  writes.foldl (fun rs ms => (rs.write ms).1) rs

def rowsIn (rs : RowStore) (t : Table) (keys : KeySet) (columns : List String) :
    Except Error (List Row) := do
  let found ← (Staging.ofStore rs.store).lookup t keys
  found.values.mapM (fun v => do return (← decodeRow v).project columns)

def read (rs : RowStore) (table : String) (keys : KeySet) (columns : List String) :
    Except Error (List Row) := do
  rs.rowsIn (← rs.db.getTable table) keys columns

def scan (rs : RowStore) (table : String) : Except Error (List Row) := do
  let t ← rs.db.getTable table
  rs.rowsIn t .all t.columnNames

def query (rs : RowStore) (st : Sql.Statement) : Except Error (List Row) :=
  Eval.runStatement rs.scan st

end RowStore

end RowForest
