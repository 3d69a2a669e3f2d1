import RowForest.Plan.Level

namespace RowForest

inductive RowTree
  | node (table : String) (row : Row) (children : List (String × List RowTree))

namespace RowTree

def row : RowTree → Row
  | node _ r _ => r

def leaf (table : String) (r : Row) : RowTree := node table r []

def structs (table column : String) : Value → Except Error (List Value)
  | .array items => .ok items
  | .null => .ok []
  | v => .error (.backend (.shape table column (.notArray v)))

mutual

def ofFields : Level → List (String × Value) → Except Error RowTree
  | ⟨t, _, children⟩, fs => do
    let (out, trees) ← fs.foldlM
      (fun (acc : Row × List (String × List RowTree)) (f : String × Value) =>
        match t.column? f.1 with
        | some c =>
          if c.type.accepts f.2 then .ok (acc.1.set f.1 f.2, acc.2)
          else .error (.backend (.shape t.name f.1 (.type c.type f.2)))
        | none => do
          let trees ← ofChildren t.name f.1 f.2 children
          return (acc.1, Fields.put f.1 trees acc.2))
      (Row.empty, children.map (fun l => (l.table.name, [])))
    return node t.name out trees
termination_by structural x => x

def ofChildren (table column : String) (v : Value) : List Level → Except Error (List RowTree)
  | [] => .error (.backend (.shape table column .unknownColumn))
  | l :: ls =>
    if l.table.name = column then do
      (← structs table column v).mapM (fun item =>
        match item with
        | .struct fs => ofFields l fs
        | item => .error (.backend (.shape table column (.notStruct item))))
    else ofChildren table column v ls
termination_by structural x => x

end

def ofRow (l : Level) (r : Row) : Except Error RowTree := ofFields l r.fields

end RowTree

end RowForest
