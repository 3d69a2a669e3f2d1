import RowForest.Value.Basic
import RowForest.Decimal
import RowForest.Text.Quoted
import RowForest.Text.Utf8

namespace RowForest

def BaseType.text : BaseType → String
  | bool => "BOOL"
  | int64 => "INT64"
  | float64 => "FLOAT64"
  | string => "STRING"
  | bytes => "BYTES"
  | date => "DATE"
  | timestamp => "TIMESTAMP"
  | numeric => "NUMERIC"
  | json => "JSON"

def commaSeparated (texts : List String) : String := ", ".intercalate texts

namespace Value

mutual

def text : Value → String
  | null => "NULL"
  | bool true => "TRUE"
  | bool false => "FALSE"
  | int64 i => toString i.toInt
  | float64 x => x.text
  | string s => Text.quoted s
  | bytes bs => "b" ++ Text.quoted (Utf8.lossy bs)
  | date d => "DATE " ++ Text.quoted d.text
  | timestamp t => "TIMESTAMP " ++ Text.quoted t.text
  | numeric s => "NUMERIC " ++ Text.quoted s
  | json s => "JSON " ++ Text.quoted s
  | array items => "[" ++ commaSeparated (itemTexts items) ++ "]"
  | struct fields => "\x7b" ++ commaSeparated (fieldTexts fields) ++ "\x7d"
termination_by structural x => x

def itemTexts : List Value → List String
  | [] => []
  | v :: vs => v.text :: itemTexts vs
termination_by structural x => x

def fieldTexts : List (String × Value) → List String
  | [] => []
  | (c, v) :: fs => (c ++ ": " ++ v.text) :: fieldTexts fs
termination_by structural x => x

end

end Value

end RowForest
