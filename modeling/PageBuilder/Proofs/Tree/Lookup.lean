import PageBuilder.Proofs.Tree.Distinct

/-!
Lookups in a well-formed tree, said of the nodes.

* `WellFormed.find_eq_some`, `WellFormed.find_eq_none`: a node is found under its identifier, and
  nothing under an identifier that no node has;
* `WellFormed.exists_parent`: every node but the root is a child;
* `WellFormed.findParent_eq_some`, `WellFormed.findParent_rootId`: the parent that is found is the
  node with that child, and the root has none.
-/

namespace PageBuilder.Tree

section Lookup

variable {root : Value} (h : WellFormed root) {p n : Value} {x : String}

include h

theorem WellFormed.find_eq_some (hn : n ∈ nodes root) (hid : n.field "id" = .text x) :
    find root (.text x) = .ok (some n) := by
  obtain ⟨v, hl, rfl⟩ := h.locate_eq_some hn hid
  rw [find, hl]
  rfl

/-- Nothing is found but a node that has the identifier. -/
theorem WellFormed.mem_of_find {id : Value} (hf : find root id = .ok (some n)) :
    n ∈ nodes root ∧ n.field "id" = id := by
  obtain ⟨found, hl, hnode⟩ := map_eq_ok_iff.mp hf
  obtain ⟨v, rfl, rfl⟩ := Option.map_eq_some_iff.mp hnode
  obtain ⟨hplaced, hsame⟩ := locate_eq hl
  obtain ⟨name, hname, -⟩ := (h.sound _ hplaced.mem_nodes).named
  rw [Visit.id, hname, Value.text_same_iff] at hsame
  exact ⟨hplaced.mem_nodes, hname.trans hsame.symm⟩

theorem WellFormed.locate_eq_none {id : Value} (hid : ∀ n ∈ nodes root, n.field "id" ≠ id) :
    locate root id = .ok none := by
  obtain ⟨found, hl⟩ := h.exists_locate id
  cases found with
  | none => exact hl
  | some v =>
    have hfound : find root id = .ok (some v.node) := by
      rw [find, hl]
      rfl
    obtain ⟨hmem, hname⟩ := h.mem_of_find hfound
    exact absurd hname (hid _ hmem)

theorem WellFormed.find_eq_none {id : Value} (hid : ∀ n ∈ nodes root, n.field "id" ≠ id) :
    find root id = .ok none := by
  rw [find, h.locate_eq_none hid]
  rfl

theorem WellFormed.exists_parent (hn : n ∈ nodes root) (hne : n ≠ root) :
    ∃ p ∈ nodes root, n ∈ p.children := by
  have hperm := flatMap_children_perm root fun m hm c hc => (h.sound m hm).isObject_child hc
  rw [nodes_eq] at hn
  have hinner : n ∈ nodesOf root.children := (List.mem_cons.mp hn).resolve_left hne
  exact List.mem_flatMap.mp (hperm.symm.subset hinner)

theorem WellFormed.findParent_eq_some (hp : p ∈ nodes root) (hc : n ∈ p.children)
    (hid : n.field "id" = .text x) : findParent root (.text x) = .ok (some p) := by
  have hn : n ∈ nodes root := h.mem_nodes_child hp hc
  obtain ⟨v, hl, rfl⟩ := h.locate_eq_some hn hid
  have hplaced := (locate_eq hl).1
  rw [findParent, hl]
  cases hq : v.parent with
  | none =>
    -- a visit without a parent is that of the root, which is no child
    have hnode := hplaced.node
    rw [hplaced.outer hq] at hnode
    obtain rfl : root = v.node := Option.some.inj hnode
    have hperm := flatMap_children_perm _ fun m hm c hc => (h.sound m hm).isObject_child hc
    have hinner := hperm.subset (List.mem_flatMap.mpr ⟨p, hp, hc⟩)
    have hdistinct := h.distinct
    rw [nodes_eq, List.map_cons, List.nodup_cons] at hdistinct
    exact absurd (List.mem_map_of_mem (f := fun m => m.field "id") hinner) hdistinct.1
  | some q =>
    obtain ⟨above, -, habove, hchild⟩ := hplaced.inner q hq
    have hmem : v.node ∈ q.children := List.mem_of_getElem? hchild
    have hqr : q ∈ nodes root := mem_nodes_of_nodeAt? habove (isObject_of_mem_children hmem)
    obtain rfl := h.parent_unique hp hqr hc hmem
    rw [Except.map, Option.bind_some, hq]

theorem WellFormed.findParent_rootId : findParent root (root.field "id") = .ok none := by
  have hwalk := walk_of_isObject h.isObject
  obtain ⟨x, hx, -⟩ := (h.sound root (self_mem_nodes root)).named
  have hself : (Visit.start root).id.same (root.field "id") = true := by
    rw [hx, Value.same_text_iff]
    exact hx
  rw [findParent, locate, hwalk, walkFrom, Except.map, List.find?, hself]
  rfl

end Lookup

end PageBuilder.Tree
