import PageBuilder.Proofs.Tree.Lookup

/-!
The walk with a stack is the recursion over children, each node before those below it.

* `Located.preorder`: the nodes from a node down, by recursion, each with its parent and its place
  among all children of that;
* `walkFrom_cons`: a step of the walk takes one visit off the stack and puts the object children on
  it, the last one first;
* `map_located_walkFrom`: what is left to a walk is the recursion from each visit on the stack;
* `map_located_walk`, `locate_preorder`: so a tree is walked in that order, and what is looked up is
  the first in it.
-/

namespace PageBuilder.Tree

/-! ## Recursion -/

/-- A node with its parent and its place among the children of the parent. -/
structure Located where
  node : Value
  parent : Option Value
  index : Nat

def Located.root (node : Value) : Located := ⟨node, none, 0⟩

/-- The child at a place. -/
def Located.child (l : Located) (c : Value × Nat) : Located := ⟨c.1, some l.node, c.2⟩

/-- A node, and then for each object among its children that child with all below it. Children that
are no objects are passed over, but they count for the places of those after them. -/
def Located.preorder (l : Located) : List Located :=
  l :: l.node.children.zipIdx.attach.flatMap fun c =>
    if c.val.1.isObject then preorder (l.child c.val) else []
termination_by sizeOf l.node
decreasing_by exact Value.sizeOf_lt_of_mem_children (List.fst_mem_of_mem_zipIdx c.property)

theorem Located.preorder_eq (l : Located) :
    l.preorder = l :: l.node.children.zipIdx.flatMap fun c =>
      if c.1.isObject then (l.child c).preorder else [] := by
  rw [preorder, ← List.attach_map_subtype_val l.node.children.zipIdx, List.flatMap_map,
    List.attach_map_subtype_val]

/-- Every node but the first stands in its parent, at the place that is told. -/
theorem Located.placed_of_mem_preorder (l : Located) : ∀ m ∈ l.preorder, m = l ∨
    ∃ p ∈ nodes l.node, m.parent = some p ∧ p.children[m.index]? = some m.node := by
  obtain ⟨node, parent, index⟩ := l
  induction node using Value.children_induction generalizing parent index with
  | step node ih =>
    intro m hm
    rw [preorder_eq] at hm
    rcases List.mem_cons.mp hm with rfl | hm
    · exact .inl rfl
    · obtain ⟨⟨c, i⟩, hc, hm⟩ := List.mem_flatMap.mp hm
      have hget : node.children[i]? = some c := List.mem_zipIdx_iff_getElem?.mp hc
      have hmem : c ∈ node.children := List.mem_of_getElem? hget
      split at hm
      · rename_i ho
        rcases ih c hmem (some node) i m hm with rfl | ⟨p, hp, hplaced⟩
        · exact .inr ⟨node, self_mem_nodes node, rfl, hget⟩
        · exact .inr ⟨p, mem_nodes_of_child hmem ho hp, hplaced⟩
      · cases hm

/-! ## Walks -/

def Visit.located (v : Visit) : Located := ⟨v.node, v.parent, v.index⟩

/-- Puts an object among the children of a visited node on a stack. -/
def Visit.push (v : Visit) (c : Value × Nat) (stack : List Visit) : List Visit :=
  if c.1.isObject then v.child c.2 c.1 :: stack else stack

theorem Visit.below_append (v : Visit) (index : Nat) (vs : List Value) (stack : List Visit) :
    v.below index vs ++ stack = (vs.zipIdx index).foldr v.push stack := by
  induction vs generalizing index with
  | nil => rfl
  | cons c rest ih =>
    rw [below, List.zipIdx_cons, List.foldr_cons, ← ih, push]
    split <;> rfl

theorem walkFrom_cons (v : Visit) (stack : List Visit) :
    walkFrom (v :: stack) = v :: walkFrom (v.node.children.zipIdx.foldr v.push stack) := by
  rw [walkFrom, Visit.below_append]

theorem flatMap_foldr_push (v : Visit) (cs : List (Value × Nat)) (stack : List Visit) :
    (cs.foldr v.push stack).flatMap (fun w => w.located.preorder) =
      (cs.flatMap fun c => if c.1.isObject then (v.located.child c).preorder else []) ++
        stack.flatMap fun w => w.located.preorder := by
  induction cs with
  | nil => rfl
  | cons c rest ih =>
    rw [List.foldr_cons, Visit.push, List.flatMap_cons]
    split
    · rw [List.flatMap_cons, ih, List.append_assoc]
      rfl
    · rw [ih, List.nil_append]

/-- The invariant of the walk: what it will visit is the recursion from each visit on the stack, from
the top of the stack down. -/
theorem map_located_walkFrom (stack : List Visit) :
    (walkFrom stack).map Visit.located = stack.flatMap fun v => v.located.preorder := by
  induction stack using walkFrom.induct with
  | case1 => rw [walkFrom, List.map_nil, List.flatMap_nil]
  | case2 v rest ih =>
    rw [Visit.below_append] at ih
    rw [walkFrom_cons, List.map_cons, ih, flatMap_foldr_push, List.flatMap_cons,
      v.located.preorder_eq]
    rfl

section Root

variable {root : Value}

theorem map_located_walk {visits : List Visit} (h : walk root = .ok visits) :
    visits.map Visit.located = (Located.root root).preorder := by
  unfold walk at h
  split at h
  · cases h
    rw [map_located_walkFrom, List.flatMap_singleton]
    rfl
  · cases h

/-- What is looked up is the first in the order that has the identifier. -/
theorem locate_preorder (h : root.isObject) (id : Value) :
    ∃ found, locate root id = .ok found ∧
      found.map Visit.located =
        (Located.root root).preorder.find? fun l => (l.node.field "id").same id := by
  have hwalk := walk_of_isObject h
  refine ⟨_, by rw [locate, hwalk, Except.map], ?_⟩
  rw [← map_located_walk hwalk, List.find?_map]
  rfl

end Root

end PageBuilder.Tree
