import RowForest.Store.Rows

namespace RowForest

inductive Call
  | read (table : String) (keys : KeySet) (columns : List String)
  | readRow (table : String) (k : Key) (columns : List String)
  | query (st : Sql.Statement)

structure ReadState where
  cancelled : Bool
  calls : List Call

/-- A read that may fail. What it did to the state stays done. -/
abbrev ReadM := ExceptT Error (StateM ReadState)

def ReadM.ofExcept {α : Type} (r : Except Error α) : ReadM α := ExceptT.mk (pure r)

structure Backend where
  read : String → KeySet → List String → ReadM (List Row)
  readRow : String → Key → List String → ReadM (Option Row)
  query : Sql.Statement → ReadM (List Row)

def checkCancelled (fault : BackendFault) : ReadM Unit := do
  if (← get).cancelled then throw (.backend fault)

def RowStore.backend (rs : RowStore) : Backend where
  read table keys columns := do
    checkCancelled .cancelled
    .ofExcept (rs.read table keys columns)
  readRow table k columns := do
    checkCancelled .cancelled
    return (← .ofExcept (rs.read table (.single k) columns)).head?
  query st := do
    checkCancelled .cancelled
    .ofExcept (rs.query st)

def record (c : Call) : ReadM Unit := modify (fun s => { s with calls := s.calls ++ [c] })

def Backend.recorded (b : Backend) : Backend where
  read table keys columns := do
    record (.read table keys columns)
    b.read table keys columns
  readRow table k columns := do
    record (.readRow table k columns)
    b.readRow table k columns
  query st := do
    record (.query st)
    b.query st

structure Faults where
  unavailable : List String := []
  served : List (String × List Row) := []
  cancelling : List String := []
  answer : Option (List Row) := none

/-- A backend with faults. Unavailable tables fail first. A cancelling table still
answers, whatever becomes of its read. -/
def Backend.withFaults (f : Faults) (b : Backend) : Backend where
  read table keys columns := do
    if table ∈ f.unavailable then throw (.backend (.unavailable table))
    let rows := match f.served.lookup table with
      | some rows => pure rows
      | none => b.read table keys columns
    if table ∈ f.cancelling then
      try
        let rows ← rows
        modify (fun s => { s with cancelled := true })
        return rows
      catch e =>
        modify (fun s => { s with cancelled := true })
        throw e
    else rows
  readRow := b.readRow
  query st :=
    match f.answer with
    | some rows => pure rows
    | none => b.query st

end RowForest
