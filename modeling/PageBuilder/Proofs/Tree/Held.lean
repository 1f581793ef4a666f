import PageBuilder.Proofs.Tree.Edits

/-!
What a value holds as a tree, before it is known to be one.

* `held`: the value and, of containers, all that is in their child lists;
* `held_eq_nodes`: in a tree of objects whose leaves have no children that is all nodes.
-/

namespace PageBuilder.Tree

/-- What a value holds, each before what is below it: the value itself and, of containers, all that
is in the child lists, whether it is a node or not. -/
def held (v : Value) : List Value :=
  v :: if v.isContainer then v.children.attach.flatMap fun c => held c.val else []
termination_by sizeOf v
decreasing_by exact Value.sizeOf_lt_of_mem_children c.property

theorem held_eq (v : Value) :
    held v = v :: if v.isContainer then v.children.flatMap held else [] := by
  rw [held]
  simp

theorem held_of_container {v : Value} (h : v.isContainer = true) :
    held v = v :: v.children.flatMap held := by
  rw [held_eq, if_pos h]

theorem held_of_leaf {v : Value} (h : v.isContainer = false) : held v = [v] := by
  rw [held_eq, h]
  rfl

@[simp] theorem self_mem_held (v : Value) : v ∈ held v := by
  rw [held_eq]
  exact List.mem_cons_self ..

theorem mem_held_of_child {v c n : Value} (h : v.isContainer = true) (hc : c ∈ v.children)
    (hn : n ∈ held c) : n ∈ held v := by
  rw [held_of_container h]
  exact List.mem_cons_of_mem _ (List.mem_flatMap.mpr ⟨c, hc, hn⟩)

theorem held_subset {v n : Value} (h : n ∈ held v) : held n ⊆ held v := by
  induction v using Value.children_induction with
  | step v ih =>
    cases hc : v.isContainer with
    | false =>
      rw [held_of_leaf hc, List.mem_singleton] at h
      rw [h]
      exact List.Subset.refl _
    | true =>
      rw [held_of_container hc] at h
      rcases List.mem_cons.mp h with rfl | h
      · exact List.Subset.refl _
      · obtain ⟨c, hmem, hn⟩ := List.mem_flatMap.mp h
        exact fun m hm => mem_held_of_child hc hmem (ih c hmem hn hm)

/-- What is held is all nodes where it is objects only, and leaves have no children. -/
theorem held_eq_nodes {v : Value}
    (h : ∀ n ∈ held v, n.isObject ∧ (n.isContainer = false → n.children = [])) :
    held v = nodes v := by
  induction v using Value.children_induction with
  | step v ih =>
    cases hc : v.isContainer with
    | false =>
      rw [held_of_leaf hc, nodes_eq, (h v (self_mem_held v)).2 hc, nodesOf_nil]
    | true =>
      have hbelow : ∀ c ∈ v.children, ∀ n ∈ held c, n ∈ held v :=
        fun c hmem n hn => mem_held_of_child hc hmem hn
      have hobjects : ∀ c ∈ v.children, c.isObject :=
        fun c hmem => (h c (hbelow c hmem c (self_mem_held c))).1
      have hsame : ∀ c ∈ v.children, held c = nodes c :=
        fun c hmem => ih c hmem fun n hn => h n (hbelow c hmem n hn)
      rw [held_of_container hc, nodes_eq, nodesOf_eq_flatMap, List.filter_eq_self.mpr hobjects,
        List.flatMap_congr hsame]

end PageBuilder.Tree
