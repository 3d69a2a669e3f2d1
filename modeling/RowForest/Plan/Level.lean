import RowForest.Error
import RowForest.SortedMap

namespace RowForest

abbrev TableNames := SortedMap String Unit

def TableNames.ofList (names : List String) : TableNames :=
  SortedMap.ofList (names.map (fun n => (n, ())))

structure Level where
  table : Table
  depth : Nat
  children : List Level

namespace Level

/-- The level of a table, with no more than `bound` levels below it. A child is kept if it
is requested or anything below it is. -/
def within (db : Database) (requested : TableNames) : Nat → Nat → Table → Level
  | 0, depth, t => ⟨t, depth, []⟩
  | bound + 1, depth, t =>
    let levels := (db.children t.name).map (within db requested bound (depth + 1))
    ⟨t, depth, levels.filter (fun l => !l.children.isEmpty || requested.contains l.table.name)⟩

mutual

def walk (parent : Option Level) : Level → List (Level × Option Level)
  | ⟨t, depth, children⟩ =>
    (⟨t, depth, children⟩, parent) :: walkAll (some ⟨t, depth, children⟩) children
termination_by structural x => x

def walkAll (parent : Option Level) : List Level → List (Level × Option Level)
  | [] => []
  | l :: ls => l.walk parent ++ walkAll parent ls
termination_by structural x => x

end

/-- Puts a level after those of its depth. The root has no parent and is left out. -/
def file (waves : List (List (Level × Level))) : Level × Option Level → List (List (Level × Level))
  | (_, none) => waves
  | (l, some parent) =>
    (waves ++ List.replicate (l.depth - waves.length) []).modify (l.depth - 1) (· ++ [(l, parent)])

def waves (root : Level) : List (List (Level × Level)) := (root.walk none).foldl file []

end Level

/-- The tables of a read as a tree: the root, the requested descendants and whatever
connects them. A requested table that is no descendant is refused. -/
def Database.plan (db : Database) (root : String) (requested : TableNames) : Except Error Level := do
  let t ← db.getTable root
  let reachable := (db.descendants root).map Table.name
  match requested.keys.find? (fun n => n ∉ reachable) with
  | some name => .error (.notInterleaved name root)
  | none => return Level.within db requested db.tables.length 0 t

end RowForest
