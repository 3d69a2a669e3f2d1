import RowForest.Plan.RowTree
import RowForest.Plan.Statement
import RowForest.Read.Backend

namespace RowForest

def ReadSettings.withoutDeleted (s : ReadSettings) (t : Table) (rows : List Row) : List Row :=
  match t.softDelete? s.softDeleteColumn with
  | some c => rows.filter (fun r => (r.get c.name).isNull)
  | none => rows

abbrev Fetched := List (String × List Row)

def Fetched.rows (f : Fetched) (table : String) : List Row := (f.lookup table).getD []

def Fetched.keys (f : Fetched) (t : Table) : List Key := (f.rows t.name).map (Key.ofRow t)

namespace Levelwise

def readLevel (b : Backend) (s : ReadSettings) (showDeleted : Bool) (f : Fetched)
    (l parent : Level) : ReadM Fetched := do
  let keys := f.keys parent.table
  if keys.isEmpty then return (l.table.name, []) :: f
  checkCancelled (.tableCancelled l.table.name)
  let rows ← b.read l.table.name (.underAny keys) l.table.columnNames
  return (l.table.name, if showDeleted then rows else s.withoutDeleted l.table rows) :: f

def readWave (b : Backend) (s : ReadSettings) (showDeleted : Bool) (f : Fetched)
    (wave : List (Level × Level)) : ReadM Fetched := do
  checkCancelled .cancelled
  wave.foldlM (fun f (l, parent) => readLevel b s showDeleted f l parent) f

/-- Where the row with a key stands. Of rows with one key, the last counts. -/
def places (t : Table) (rows : List Row) : List (Key × Nat) :=
  (rows.zipIdx.map (fun (r, i) => (Key.ofRow t r, i))).reverse

def hang (table : String) (tree : RowTree) : RowTree → RowTree
  | .node t r children =>
    .node t r (children.map (fun (name, trees) => (name, if name = table then trees ++ [tree] else trees)))

/-- Hangs a tree below the row that its key leads to, if there is one. -/
def settle (t : Table) (places : List (Key × Nat)) (child : Table) (out : List RowTree) (tree : RowTree) :
    List RowTree :=
  match places.lookup ((Key.ofRow child tree.row).parentKey t) with
  | some i => out.modify i (hang child.name tree)
  | none => out

def attach (t : Table) (rows : List Row) (children : List (Table × List RowTree)) : List RowTree :=
  children.foldl (fun out c => c.2.foldl (settle t (places t rows) c.1) out)
    (rows.map (fun r => .node t.name r (children.map (fun c => (c.1.name, [])))))

mutual

def build (f : Fetched) : Level → List Row → List RowTree
  | ⟨t, _, children⟩, rows => attach t rows (buildAll f children)
termination_by structural x => x

def buildAll (f : Fetched) : List Level → List (Table × List RowTree)
  | [] => []
  | l :: ls => (l.table, build f l (f.rows l.table.name)) :: buildAll f ls
termination_by structural x => x

end

/-- Reads every level below the given root rows, depth by depth, and builds their trees
once all have been read. -/
def read (b : Backend) (s : ReadSettings) (showDeleted : Bool) (root : Level) (rows : List Row) :
    ReadM (List RowTree) := do
  let f ← root.waves.foldlM (readWave b s showDeleted) [(root.table.name, rows)]
  return build f root rows

end Levelwise

end RowForest
