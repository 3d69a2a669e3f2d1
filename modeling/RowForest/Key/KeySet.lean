import RowForest.Key.Basic

namespace RowForest

inductive KeySet
  | single (k : Key)
  | list (ks : List Key)
  /-- Every row whose key starts with the given one. -/
  | under (k : Key)
  | union (sets : List KeySet)

namespace KeySet

def all : KeySet := under ⟨[]⟩

def underAny (ks : List Key) : KeySet := union (ks.map under)

mutual

def isEmpty : KeySet → Bool
  | single _ | under _ => false
  | list ks => ks.isEmpty
  | union sets => allEmpty sets
termination_by structural x => x

def allEmpty : List KeySet → Bool
  | [] => true
  | s :: ss => s.isEmpty && allEmpty ss
termination_by structural x => x

end

mutual

def contains : KeySet → Key → Bool
  | single l, k => l.equal k
  | list ls, k => ls.any (·.equal k)
  | under l, k => k.startsWith l
  | union sets, k => anyContains sets k
termination_by structural x => x

def anyContains : List KeySet → Key → Bool
  | [], _ => false
  | s :: ss, k => s.contains k || anyContains ss k
termination_by structural x => x

end

end KeySet

end RowForest
