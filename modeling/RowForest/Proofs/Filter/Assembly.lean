import RowForest.Filter.Draft
import RowForest.Proofs.Filter.Meaning
import RowForest.Proofs.SortedMap
import Mathlib.Logic.Relation

namespace RowForest.Filter

/-- A builder between two calls: the last number it used, the types it noted and the nodes it made. -/
structure Assembly where
  count : Nat
  types : Types
  nodes : List Node

namespace Assembly

def empty : Assembly := ⟨0, .empty, []⟩

def add (a : Assembly) (node : Int → Node) (type : NodeType) : Assembly :=
  ⟨a.count + 1, a.types.insert (a.count + 1) type, node (a.count + 1) :: a.nodes⟩

/-- What one call of a builder does. A node may be used in more than one place. -/
inductive Step (a : Assembly) : Assembly → Prop
  | ident (name : String) (type : NodeType) : Step a (a.add (.ident · name) type)
  | const (c : Constant) : Step a (a.add (.const · c) c.type)
  | select {operand : Node} (h : operand ∈ a.nodes) (field : String) (type : NodeType) :
      Step a (a.add (.select · operand field) type)
  | call {args : List Node} (h : args ⊆ a.nodes) (function : String) :
      Step a (a.add (.call · function args) (Draft.resultType function))

end Assembly

def Checked.Assembled (checked : Checked) : Prop :=
  ∃ a, Relation.ReflTransGen Assembly.Step .empty a ∧ checked.root ∈ a.nodes ∧ checked.types = a.types

def Node.Typed (types : Types) : Node → Prop
  | .ident id _ | .select id _ _ => ∃ type, types.find? id = some type
  | .const id c => types.find? id = some c.type
  | .call id function _ => types.find? id = some (Draft.resultType function)

namespace Assembly

variable {a b : Assembly} {node : Int → Node} {type : NodeType}

def Typed (a : Assembly) : Prop := ∀ e ∈ a.nodes, ∀ n ∈ e.nodes, n.id ≤ a.count ∧ n.Typed a.types

theorem typed_insert {n : Node} {i : Int} (hid : n.id ≠ i) (h : n.Typed a.types) : n.Typed (a.types.insert i type) := by
  have hfind : (a.types.insert i type).find? n.id = a.types.find? n.id := by
    rw [SortedMap.find?_insert, if_neg hid]
  cases n with
  | _ =>
      rw [Node.id] at hfind
      rwa [Node.Typed, hfind]

theorem Typed.add (h : a.Typed) (hid : (node (a.count + 1)).id = a.count + 1)
    (htype : (node (a.count + 1)).Typed (a.types.insert (a.count + 1) type))
    (hnodes : ∀ n ∈ (node (a.count + 1)).nodes, n = node (a.count + 1) ∨ ∃ e ∈ a.nodes, n ∈ e.nodes) :
    (a.add node type).Typed := by
  have hold : ∀ e ∈ a.nodes, ∀ n ∈ e.nodes, n.id ≤ a.count + 1 ∧ n.Typed (a.types.insert (a.count + 1) type) := by
    intro e he n hn
    obtain ⟨hle, htyped⟩ := h e he n hn
    exact ⟨by omega, typed_insert (by omega) htyped⟩
  refine List.forall_mem_cons.2 ⟨fun n hn => ?_, hold⟩
  obtain rfl | ⟨e, he, hne⟩ := hnodes n hn
  · exact ⟨hid.le, htype⟩
  · exact hold e he n hne

theorem Step.typed (hstep : Step a b) (h : a.Typed) : b.Typed := by
  cases hstep with
  | ident name type => exact h.add rfl ⟨type, by simp [SortedMap.find?_insert]⟩ (by simp [Node.nodes])
  | const c => exact h.add rfl (by simp [Node.Typed, SortedMap.find?_insert]) (by simp [Node.nodes])
  | @select operand hoperand field type =>
      refine h.add rfl ⟨type, by simp [SortedMap.find?_insert]⟩ fun n hn => ?_
      exact (List.mem_cons.1 hn).imp id fun hn => ⟨operand, hoperand, hn⟩
  | call hargs function =>
      refine h.add rfl (by simp [Node.Typed, SortedMap.find?_insert]) fun n hn => ?_
      refine (List.mem_cons.1 hn).imp id fun hn => ?_
      obtain ⟨e, he, hne⟩ := mem_nodesOf.1 hn
      exact ⟨e, hargs he, hne⟩

/-- All nodes made so far have their numbers and types, whatever a builder was called for. -/
theorem typed_of_steps (h : Relation.ReflTransGen Step .empty a) : a.Typed := by
  induction h with
  | refl => exact List.forall_mem_nil _
  | tail _ hstep ih => exact hstep.typed ih

theorem Step.nodes_subset (hstep : Step a b) : a.nodes ⊆ b.nodes := by
  cases hstep <;> exact List.subset_cons_self _ _

theorem nodes_subset_of_steps (h : Relation.ReflTransGen Step a b) : a.nodes ⊆ b.nodes := by
  induction h with
  | refl => exact List.Subset.refl _
  | tail _ hstep ih => exact List.Subset.trans ih hstep.nodes_subset

/-- Whether a builder can go on to make some nodes, and then has used the numbers up to `n` and noted `types`. -/
def Makes (a : Assembly) (es : List Node) (n : Nat) (types : Types) : Prop :=
  ∃ b, Relation.ReflTransGen Step a b ∧ es ⊆ b.nodes ∧ b.count = n ∧ b.types = types

mutual

theorem makes_number : ∀ (d : Draft) (a : Assembly),
    a.Makes [(d.number a.count a.types).1] (d.number a.count a.types).2.1 (d.number a.count a.types).2.2
  | .ident name type, a => ⟨_, .single (.ident name type), by simp [add, Draft.number], rfl, rfl⟩
  | .const c, a => ⟨_, .single (.const c), by simp [add, Draft.number], rfl, rfl⟩
  | .select operand field type, a => by
    obtain ⟨b, hsteps, hoperand, hcount, htypes⟩ := makes_number operand a
    refine ⟨_, hsteps.tail (.select (hoperand List.mem_cons_self) field type), ?_, ?_, ?_⟩
    · simp [add, Draft.number, hcount]
    · simp [add, Draft.number, hcount]
    · simp [add, Draft.number, hcount, htypes]
  | .call function args, a => by
    obtain ⟨b, hsteps, hargs, hcount, htypes⟩ := makes_numberAll args a
    refine ⟨_, hsteps.tail (.call hargs function), ?_, ?_, ?_⟩
    · simp [add, Draft.number, hcount]
    · simp [add, Draft.number, hcount]
    · simp [add, Draft.number, hcount, htypes]
termination_by structural d => d

theorem makes_numberAll : ∀ (ds : List Draft) (a : Assembly),
    a.Makes (Draft.numberAll a.count a.types ds).1 (Draft.numberAll a.count a.types ds).2.1
      (Draft.numberAll a.count a.types ds).2.2
  | [], a => ⟨a, .refl, List.nil_subset _, rfl, rfl⟩
  | d :: ds, a => by
    obtain ⟨b, hsteps, hnode, hcount, htypes⟩ := makes_number d a
    obtain ⟨b', hsteps', hnodes, hcount', htypes'⟩ := makes_numberAll ds b
    rw [hcount, htypes] at hnodes hcount' htypes'
    refine ⟨b', hsteps.trans hsteps', List.cons_subset.2 ⟨?_, hnodes⟩, hcount', htypes'⟩
    exact nodes_subset_of_steps hsteps' (hnode List.mem_cons_self)
termination_by structural ds => ds

end

end Assembly

theorem Draft.assembled_build {d : Draft} {checked : Checked} (h : d.build = some checked) : checked.Assembled := by
  obtain ⟨a, hsteps, hroot, -, htypes⟩ := Assembly.makes_number d .empty
  cases h
  exact ⟨a, hsteps, hroot List.mem_cons_self, htypes.symm⟩

theorem Checked.Assembled.typed {checked : Checked} (h : checked.Assembled) :
    ∀ n ∈ checked.root.nodes, n.Typed checked.types := by
  obtain ⟨a, hsteps, hroot, htypes⟩ := h
  intro n hn
  rw [htypes]
  exact (Assembly.typed_of_steps hsteps _ hroot n hn).2

end RowForest.Filter
