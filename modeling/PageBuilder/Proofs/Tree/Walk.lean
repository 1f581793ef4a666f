import PageBuilder.Proofs.Results
import PageBuilder.Proofs.Tree.Nodes

/-!
Walks visit every node once, in order, and each visit tells truly where its node stands.

* `map_node_walkFrom`: a walk from a stack visits the nodes of the trees on the stack;
* `placed_of_mem_walkFrom`: visits that stand rightly on the stack lead to visits that do;
* `locate_eq`, `locateInner_eq`: what is known of a visit that was looked up.
-/

namespace PageBuilder.Tree

/-! ## Order -/

theorem nodesOf_eq_flatMap_below (v : Visit) (index : Nat) (vs : List Value) :
    (v.below index vs).flatMap (fun w => nodes w.node) = nodesOf vs := by
  induction vs generalizing index with
  | nil => rw [Visit.below, nodesOf_nil, List.flatMap_nil]
  | cons node rest ih =>
    rw [Visit.below, nodesOf]
    split
    · rw [List.flatMap_cons, ih, Visit.child]
    · exact ih (index + 1)

/-- A walk visits the nodes of the trees on the stack, tree by tree. -/
theorem map_node_walkFrom (stack : List Visit) :
    (walkFrom stack).map Visit.node = stack.flatMap fun v => nodes v.node := by
  induction stack using walkFrom.induct with
  | case1 => rw [walkFrom, List.map_nil, List.flatMap_nil]
  | case2 v rest ih =>
    rw [walkFrom, List.map_cons, ih, List.flatMap_append, nodesOf_eq_flatMap_below,
      List.flatMap_cons, nodes_eq v.node, List.cons_append]

theorem map_node_walk {root : Value} {visits : List Visit} (h : walk root = .ok visits) :
    visits.map Visit.node = nodes root := by
  unfold walk at h
  split at h
  · cases h
    rw [map_node_walkFrom, List.flatMap_cons, List.flatMap_nil, List.append_nil, Visit.start]
  · cases h

theorem walk_of_isObject {root : Value} (h : root.isObject) :
    walk root = .ok (walkFrom [.start root]) :=
  if_pos h

/-- The identifiers that a walk meets are those of the nodes. -/
theorem map_id_walk {root : Value} {visits : List Visit} (h : walk root = .ok visits) :
    visits.map Visit.id = (nodes root).map fun n => n.field "id" := by
  rw [← map_node_walk h, List.map_map]
  rfl

theorem ids_eq {v : Value} (h : v.isObject) :
    ids v = .ok ((nodes v).map fun n => n.field "id") := by
  have hwalk := walk_of_isObject h
  rw [ids, hwalk, Except.map, map_id_walk hwalk]

/-! ## Places -/

/-- A visit that is true of a tree: the address leads to the node, and the parent has the node in
the place that is told. Only the root has no parent. -/
structure Visit.Placed (root : Value) (v : Visit) : Prop where
  node : nodeAt? root v.address = some v.node
  isObject : v.node.isObject
  inner : ∀ p, v.parent = some p → ∃ above, v.address = above ++ [v.index] ∧
    nodeAt? root above = some p ∧ p.children[v.index]? = some v.node
  outer : v.parent = none → v.address = []

theorem Visit.Placed.mem_nodes {root : Value} {v : Visit} (h : v.Placed root) :
    v.node ∈ nodes root :=
  mem_nodes_of_nodeAt? h.node h.isObject

theorem Visit.placed_start {root : Value} (h : root.isObject) : (Visit.start root).Placed root where
  node := rfl
  isObject := h
  inner := by
    intro p hp
    cases hp
  outer := fun _ => rfl

theorem Visit.placed_child {root c : Value} {v : Visit} {i : Nat} (hv : v.Placed root)
    (hc : v.node.children[i]? = some c) (ho : c.isObject) : (v.child i c).Placed root where
  node := by
    show nodeAt? root (v.address ++ [i]) = some c
    rw [nodeAt?_append, hv.node]
    simp [nodeAt?, hc]
  isObject := ho
  inner := by
    intro p hp
    cases hp
    exact ⟨v.address, rfl, hv.node, hc⟩
  outer := by
    intro hp
    cases hp

theorem Visit.placed_below {root : Value} {v : Visit} (hv : v.Placed root) (index : Nat)
    (vs : List Value) (hvs : v.node.children.drop index = vs) :
    ∀ w ∈ v.below index vs, w.Placed root := by
  induction vs generalizing index with
  | nil =>
    intro w hw
    cases hw
  | cons node rest ih =>
    have hget : v.node.children[index]? = some node := by
      rw [← Nat.add_zero index, ← List.getElem?_drop, hvs]
      rfl
    have hrest : v.node.children.drop (index + 1) = rest := by
      rw [← List.tail_drop, hvs, List.tail_cons]
    intro w hw
    rw [Visit.below] at hw
    split at hw
    · rename_i ho
      rcases List.mem_cons.mp hw with rfl | hw
      · exact placed_child hv hget ho
      · exact ih (index + 1) hrest w hw
    · exact ih (index + 1) hrest w hw

/-- The invariant of the walk: all visits on the stack are true of the tree. -/
theorem placed_of_mem_walkFrom {root : Value} (stack : List Visit)
    (h : ∀ v ∈ stack, v.Placed root) : ∀ v ∈ walkFrom stack, v.Placed root := by
  induction stack using walkFrom.induct with
  | case1 =>
    intro v hv
    rw [walkFrom] at hv
    cases hv
  | case2 v rest ih =>
    intro w hw
    have hself := h v (List.mem_cons_self ..)
    rw [walkFrom] at hw
    rcases List.mem_cons.mp hw with rfl | hw
    · exact hself
    · refine ih ?_ w hw
      intro u hu
      rcases List.mem_append.mp hu with hu | hu
      · exact Visit.placed_below hself 0 _ rfl u hu
      · exact h u (List.mem_cons_of_mem _ hu)

theorem placed_of_mem_walk {root : Value} {visits : List Visit} (h : walk root = .ok visits) :
    ∀ v ∈ visits, v.Placed root := by
  unfold walk at h
  split at h
  · rename_i ho
    cases h
    apply placed_of_mem_walkFrom
    intro v hv
    rw [List.mem_singleton] at hv
    rw [hv]
    exact Visit.placed_start ho
  · cases h

/-! ## Lookups -/

/-- A node that was looked up is placed, and has the identifier. -/
theorem locate_eq {root id : Value} {v : Visit} (h : locate root id = .ok (some v)) :
    v.Placed root ∧ v.id.same id = true := by
  obtain ⟨visits, hw, hfind⟩ := map_eq_ok_iff.mp h
  have hid := List.find?_some hfind
  exact ⟨placed_of_mem_walk hw v (List.mem_of_find?_eq_some hfind), hid⟩

/-- An inner node that was looked up: the parent has the node in the place that is told. -/
theorem locateInner_eq {root id : Value} {v : Visit} (h : locateInner root id = .ok (some v)) :
    v.Placed root ∧ v.id.same id = true ∧ ∃ p, v.parent = some p ∧
      v.address = v.above ++ [v.index] ∧ nodeAt? root v.above = some p ∧
      p.children[v.index]? = some v.node := by
  unfold locateInner at h
  obtain ⟨r, hr, h⟩ := bind_eq_ok_iff.mp h
  split at h
  · cases h
  · obtain ⟨found, hl, h⟩ := bind_eq_ok_iff.mp h
    have hfilter : found.filter (fun v => v.parent.isSome) = some v := Except.ok.inj h
    obtain ⟨rfl, hsome⟩ := Option.filter_eq_some_iff.mp hfilter
    obtain ⟨hplaced, hid⟩ := locate_eq hl
    obtain ⟨p, hp⟩ := Option.isSome_iff_exists.mp hsome
    obtain ⟨above, haddress, habove, hchild⟩ := hplaced.inner p hp
    have hdrop : v.above = above := by
      rw [Visit.above, haddress, List.dropLast_concat]
    refine ⟨hplaced, hid, p, hp, ?_, ?_, hchild⟩
    · rw [hdrop, haddress]
    · rw [hdrop, habove]

end PageBuilder.Tree
