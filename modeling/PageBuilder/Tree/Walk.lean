import PageBuilder.Fault
import PageBuilder.Value.Children

/-!
Walks over a page tree. The nodes of a tree are its root and, from a node, the objects among its
children; a walk visits a node before its children and the children in order.
-/

namespace PageBuilder.Tree

/-- A node with its parent, its place among the children of the parent, and its address: the
places that lead down to it from the root. -/
structure Visit where
  node : Value
  parent : Option Value
  index : Nat
  address : List Nat

def Visit.start (root : Value) : Visit := ⟨root, none, 0, []⟩

def Visit.child (v : Visit) (index : Nat) (node : Value) : Visit :=
  ⟨node, some v.node, index, v.address ++ [index]⟩

def Visit.id (v : Visit) : Value := v.node.field "id"

/-- The visits of the objects in a part of a child list that begins at place `index`. -/
def Visit.below (v : Visit) (index : Nat) : List Value → List Visit
  | [] => []
  | node :: rest =>
    if node.isObject then v.child index node :: v.below (index + 1) rest
    else v.below (index + 1) rest

theorem sizeOf_below_le (v : Visit) (index : Nat) (nodes : List Value) (rest : List Visit) :
    sizeOf ((v.below index nodes ++ rest).map Visit.node) ≤
      sizeOf nodes + sizeOf (rest.map Visit.node) := by
  induction nodes generalizing index with
  | nil =>
    simp only [Visit.below, List.nil_append]
    omega
  | cons node nodes ih =>
    have := ih (index + 1)
    unfold Visit.below
    split
    · simp only [List.cons_append, List.map_cons, List.cons.sizeOf_spec, Visit.child]
      omega
    · simp only [List.cons.sizeOf_spec]
      omega

/-- Takes the next visit from a stack and puts those of its children in its place. -/
def walkFrom : List Visit → List Visit
  | [] => []
  | v :: rest => v :: walkFrom (v.below 0 v.node.children ++ rest)
termination_by stack => sizeOf (stack.map Visit.node)
decreasing_by
  have hbelow := sizeOf_below_le v 0 v.node.children rest
  have hchildren := v.node.sizeOf_children_lt
  simp only [List.map_cons, List.cons.sizeOf_spec]
  omega

/-- All visits of a tree; the root has to be an object. -/
def walk (root : Value) : Except Fault (List Visit) :=
  if root.isObject then .ok (walkFrom [.start root]) else .error .notObject

/-- The identifiers of all nodes, of whatever kind they are. -/
def ids (root : Value) : Except Fault (List Value) :=
  (walk root).map fun visits => visits.map Visit.id

/-- The first node with an identifier. -/
def locate (root id : Value) : Except Fault (Option Visit) :=
  (walk root).map fun visits => visits.find? fun v => v.id.same id

def find (root id : Value) : Except Fault (Option Value) :=
  (locate root id).map fun found => found.map Visit.node

def findParent (root id : Value) : Except Fault (Option Value) :=
  (locate root id).map fun found => found.bind Visit.parent

/-- The identifier of the root itself. -/
def rootId (root : Value) : Except Fault Value :=
  if root.isObject then .ok (root.field "id") else .error .notObject

end PageBuilder.Tree
