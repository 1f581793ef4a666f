import PageBuilder.Proofs.Store.Move
import PageBuilder.Proofs.Tree.Revision

/-!
Nodes that change places with a neighbour.

* `Neighbours`: two places in a list, one right behind the other;
* `swapped`: the tree in which two children of a node have changed places;
* `WellFormed.reorder_eq_map`, `WellFormed.move_eq_swapped`: a step to a neighbour's place, and the
  move there, give that tree;
* `WellFormed.swapped_swapped`: a swap is undone by the swap the other way;
* `Store.reorder_reorders`: what a step does to a store, and that the step back undoes it.
-/

namespace PageBuilder.Tree

/-! ## Neighbours -/

/-- Two of `count` places, one right behind the other. -/
structure Neighbours (i j count : Nat) : Prop where
  first : i < count
  second : j < count
  next : j = i + 1 ∨ i = j + 1

theorem Neighbours.symm {i j count : Nat} (h : Neighbours i j count) : Neighbours j i count :=
  ⟨h.second, h.first, h.next.symm⟩

namespace Direction

def value : Direction → Value
  | up => .text "up"
  | down => .text "down"

def opposite : Direction → Direction
  | up => down
  | down => up

theorem ofValue?_value (d : Direction) : ofValue? d.value = some d := by
  cases d <;> rfl

variable {d : Direction} {i j count : Nat}

theorem neighbours_of_from? (h : d.from? i count = some j) (hi : i < count) :
    Neighbours i j count := by
  cases d with
  | up =>
    rw [from?] at h
    split at h
    · cases h
    · cases h
      exact ⟨hi, by omega, .inr (by omega)⟩
  | down =>
    rw [from?] at h
    split at h
    · rename_i hlt
      cases h
      exact ⟨hi, hlt, .inl rfl⟩
    · cases h

/-- The way back from the place next to one. -/
theorem from?_opposite (h : d.from? i count = some j) (hi : i < count) :
    d.opposite.from? j count = some i := by
  cases d with
  | up =>
    rw [from?] at h
    split at h
    · cases h
    · cases h
      rw [opposite, from?, if_pos (by omega)]
      exact congrArg some (by omega)
  | down =>
    rw [from?] at h
    split at h
    · cases h
      rw [opposite, from?, if_neg (by omega)]
      rfl
    · cases h

end Direction

section Lists

variable {items before after : List Value} {a b n : Value} {i j : Nat}

/-- What stands at two neighbouring places. -/
theorem Neighbours.exists_parts (h : Neighbours i j items.length) :
    ∃ before a b after, items = before ++ a :: b :: after ∧
      (i = before.length ∧ j = before.length + 1 ∨ i = before.length + 1 ∧ j = before.length) := by
  have hparts : ∀ k, k + 1 < items.length →
      ∃ before a b after, items = before ++ a :: b :: after ∧ before.length = k := by
    intro k hk
    refine ⟨items.take k, items[k], items[k + 1], items.drop (k + 2), ?_,
      List.length_take_of_le (by omega)⟩
    rw [← List.drop_eq_getElem_cons hk, ← List.drop_eq_getElem_cons (by omega),
      List.take_append_drop]
  rcases h.next with rfl | rfl
  · obtain ⟨before, a, b, after, heq, rfl⟩ := hparts i h.second
    exact ⟨before, a, b, after, heq, .inl ⟨rfl, rfl⟩⟩
  · obtain ⟨before, a, b, after, heq, rfl⟩ := hparts j h.first
    exact ⟨before, a, b, after, heq, .inr ⟨rfl, rfl⟩⟩

theorem swap_next : swap before.length (before.length + 1) (before ++ a :: b :: after) =
    before ++ b :: a :: after := by
  simp [swap]

theorem swap_previous : swap (before.length + 1) before.length (before ++ a :: b :: after) =
    before ++ b :: a :: after := by
  simp [swap]

theorem Neighbours.swap_swap (h : Neighbours i j items.length) :
    swap j i (swap i j items) = items := by
  obtain ⟨before, a, b, after, rfl, ⟨rfl, rfl⟩ | ⟨rfl, rfl⟩⟩ := h.exists_parts
  · rw [swap_next, swap_previous]
  · rw [swap_previous, swap_next]

theorem Neighbours.getElem?_swap (h : Neighbours i j items.length) :
    (swap i j items)[j]? = items[i]? := by
  obtain ⟨before, a, b, after, rfl, ⟨rfl, rfl⟩ | ⟨rfl, rfl⟩⟩ := h.exists_parts
  · rw [swap_next]
    simp
  · rw [swap_previous]
    simp

theorem insertIdx_length_append :
    (before ++ after).insertIdx before.length n = before ++ n :: after := by
  induction before with
  | nil => rfl
  | cons c rest ih => rw [List.cons_append, List.length_cons, List.insertIdx_succ_cons, ih]; rfl

theorem placed_length_append :
    placed before.length n (before ++ after) = before ++ n :: after := by
  have hplace : (min (max (before.length : Int) 0) (before ++ after).length).toNat =
      before.length := by
    rw [List.length_append]
    omega
  rw [placed, hplace, insertIdx_length_append]

/-- To take a member out and to put it in at a neighbouring place, as counted without it, is to swap
the neighbours. -/
theorem Neighbours.placed_eraseIdx (h : Neighbours i j items.length) (hn : items[i]? = some n) :
    placed j n (items.eraseIdx i) = swap i j items := by
  obtain ⟨before, a, b, after, rfl, ⟨rfl, rfl⟩ | ⟨rfl, rfl⟩⟩ := h.exists_parts
  · obtain rfl : a = n := by simpa using hn
    have hrest : (before ++ a :: b :: after).eraseIdx before.length = (before ++ [b]) ++ after := by
      simp [List.eraseIdx_append_of_length_le]
    have hlength : before.length + 1 = (before ++ [b]).length := by simp
    rw [swap_next, hrest, hlength, placed_length_append]
    simp
  · obtain rfl : b = n := by simpa using hn
    have hrest : (before ++ a :: b :: after).eraseIdx (before.length + 1) =
        before ++ a :: after := by
      simp [List.eraseIdx_append_of_length_le]
    rw [swap_previous, hrest, placed_length_append]

end Lists

/-! ## Trees -/

/-- Nothing is below one of its children. -/
theorem notMem_nodes_of_child {p n : Value} (hn : n ∈ p.children) : p ∉ nodes n := by
  have hsize : ∀ v m : Value, m ∈ nodes v → sizeOf m ≤ sizeOf v := by
    intro v
    induction v using Value.children_induction with
    | step v ih =>
      intro m hm
      rw [nodes_eq, List.mem_cons] at hm
      rcases hm with rfl | hm
      · exact Nat.le_refl _
      · obtain ⟨c, hc, -, hm⟩ := mem_nodesOf.mp hm
        exact Nat.le_trans (ih c hc m hm) (Nat.le_of_lt (Value.sizeOf_lt_of_mem_children hc))
  intro hp
  have hlt := Value.sizeOf_lt_of_mem_children hn
  have hle := hsize n p hp
  omega

/-- A node stands at a place among the children of another one; both are told by their names. -/
structure Stands (root : Value) (x t : String) (i : Nat) (p n : Value) : Prop where
  parent : p ∈ nodes root
  parentId : p.field "id" = .text t
  child : p.children[i]? = some n
  childId : n.field "id" = .text x

/-- The tree in which two children of a node have changed places. -/
def swapped (t : String) (i j : Nat) (root : Value) : Value :=
  relist (fun id items => if id.isTextOf t then swap i j items else items) root

section Swapped

variable {root p n : Value} {x t : String} {i j : Nat} (h : WellFormed root)
  (hs : Stands root x t i p n)

theorem Stands.lt_length (hs : Stands root x t i p n) : i < p.children.length :=
  (List.getElem?_eq_some_iff.mp hs.child).1

include h hs

theorem WellFormed.isContainer_of_stands : p.isContainer = true :=
  (h.sound p hs.parent).isContainer_of_children
    (List.ne_nil_of_mem (List.mem_of_getElem? hs.child))

/-- A node that stands below another one can be moved there. -/
theorem WellFormed.movable_of_stands : n ∈ nodes root ∧ Movable root x t := by
  have hchild : n ∈ p.children := List.mem_of_getElem? hs.child
  have hn : n ∈ nodes root := h.mem_nodes_child hs.parent hchild
  have hbelow : p ∉ nodes n := notMem_nodes_of_child hchild
  refine ⟨hn, n, hn, p, hs.parent, hs.childId, ?_, hs.parentId, h.isContainer_of_stands hs, hbelow⟩
  rintro rfl
  exact hbelow hs.parent

/-- A node is looked up with its parent and its place. -/
theorem WellFormed.exists_visit :
    ∃ v, locateInner root (.text x) = .ok (some v) ∧ v.parent = some p ∧ v.index = i ∧
      nodeAt? root v.above = some p := by
  obtain ⟨hn, m, hm, -, -, hmx, hne, -⟩ := h.movable_of_stands hs
  have hroot : root.field "id" ≠ .text x := by
    intro hid
    exact hne (h.eq_of_id_eq (self_mem_nodes root) hm (hmx.trans hid.symm))
  obtain ⟨v, hl, rfl⟩ := h.locateInner_eq_some hn hs.childId hroot
  obtain ⟨-, -, q, hparent, -, habove, hchild⟩ := locateInner_eq hl
  have hq : q ∈ nodes root :=
    mem_nodes_of_nodeAt? habove (isObject_of_mem_children (List.mem_of_getElem? hchild))
  obtain rfl := h.parent_unique hs.parent hq (List.mem_of_getElem? hs.child)
    (List.mem_of_getElem? hchild)
  have hdistinct : p.children.Nodup := List.Nodup.of_map _ (h.nodup_children hq)
  have hindex : v.index = i :=
    (List.getElem?_inj (List.getElem?_eq_some_iff.mp hchild).1 hdistinct).mp
      (hchild.trans hs.child.symm)
  exact ⟨v, hl, hparent, hindex, habove⟩

/-- A step gives the tree in which the neighbours are swapped, if there is a neighbour. -/
theorem WellFormed.reorder_eq_map (d : Direction) :
    Tree.reorder root (.text x) d.value =
      .ok ((d.from? i p.children.length).map fun j => swapped t i j root) := by
  obtain ⟨v, hl, hparent, rfl, habove⟩ := h.exists_visit hs
  have hswapped : ∀ j, editAt v.above (Tree.editChildren (swap v.index j)) root =
      swapped t v.index j root := fun j =>
    (h.relist_at habove hs.parent hs.parentId (h.isContainer_of_stands hs) _).symm
  rw [Tree.reorder, d.ofValue?_value]
  simp only [hl, bind, Except.bind, pure, Except.pure, hparent, Option.map_some, Option.getD_some,
    hswapped]

/-- To move a node to a neighbouring place is to swap it with the neighbour. -/
theorem WellFormed.move_eq_swapped (hj : Neighbours i j p.children.length) :
    Tree.move root (.text x) (.text t) (.int j) = .ok (some (swapped t i j root)) := by
  obtain ⟨hn, hmovable⟩ := h.movable_of_stands hs
  obtain ⟨v, -, -, -, habove⟩ := h.exists_visit hs
  have hchild : n ∈ p.children := List.mem_of_getElem? hs.child
  have hself : (p.field "id").isTextOf t = true := (Value.isTextOf_iff _ _).mpr hs.parentId
  have hrelocated : relocated n x t j root =
      editAt v.above (Tree.editChildren (swap i j)) root := by
    refine relist_eq_editAt habove (isSome_childList?_of_mem hchild) h.distinct ?_ ?_
    · rw [if_pos hself, h.without_eq_eraseIdx hs.parent hs.child hs.childId,
        hj.placed_eraseIdx hs.child]
    · intro m hm hne items hitems
      rw [hs.parentId] at hne
      rw [Value.isTextOf_eq_false hne, if_neg Bool.false_ne_true]
      refine h.without_of_other_parent hs.parent hm ?_ hchild hs.childId hitems
      rintro rfl
      exact hne hs.parentId
  have hswapped := h.relist_at habove hs.parent hs.parentId (h.isContainer_of_stands hs) (swap i j)
  rw [h.move_eq_relocated j hn hs.childId hmovable, hrelocated, ← hswapped, swapped]

/-- The swap the other way undoes a swap. -/
theorem WellFormed.swapped_swapped (hj : Neighbours i j p.children.length) :
    swapped t j i (swapped t i j root) = root := by
  rw [swapped, swapped, relist_relist]
  · refine relist_eq_self fun m hm => ?_
    split
    · rename_i hid
      rw [Value.isTextOf_iff] at hid
      obtain rfl := h.eq_of_id_eq hs.parent hm (hid.trans hs.parentId.symm)
      exact hj.swap_swap
    · rfl
  · intro id items
    split
    · exact (swap_map _ i j items).symm
    · rfl

/-- Where the node stands after the swap. -/
theorem WellFormed.exists_stands_swapped (hj : Neighbours i j p.children.length) :
    ∃ q, Stands (swapped t i j root) x t j q n ∧ q.children.length = p.children.length := by
  obtain ⟨v, -, -, -, habove⟩ := h.exists_visit hs
  have ho : p.isObject = true := (h.sound p hs.parent).isObject
  have hchildren := children_editChildren ho (swap i j)
  have hat := nodeAt?_editAt habove (Tree.editChildren (swap i j))
  rw [← h.relist_at habove hs.parent hs.parentId (h.isContainer_of_stands hs)] at hat
  refine ⟨Tree.editChildren (swap i j) p, ⟨mem_nodes_of_nodeAt? hat ?_, ?_, ?_, hs.childId⟩, ?_⟩
  · rwa [isObject_editChildren]
  · rw [field_editChildren (by decide), hs.parentId]
  · rw [hchildren, hj.getElem?_swap, hs.child]
  · rw [hchildren, (swap_perm i j p.children).length_eq]

end Swapped

end PageBuilder.Tree

namespace PageBuilder.Store

open PageBuilder.Tree

section Steps

variable {s : Store} {p n : Value} {x t : String} {i j : Nat} (h : WellFormed s.root)
  (hs : Stands s.root x t i p n) {d : Direction}

include h

include hs in
/-- A step to a neighbouring place is a move there, and the step back undoes it. -/
theorem reorder_of_next (hj : d.from? i p.children.length = some j) :
    s.reorder (.text x) d.value = (.ok true, s.withRoot (swapped t i j s.root)) ∧
      s.move (.text x) (.text t) (.int j) = (.ok true, s.withRoot (swapped t i j s.root)) ∧
      (s.withRoot (swapped t i j s.root)).reorder (.text x) d.opposite.value = (.ok true, s) := by
  have hneighbours := Direction.neighbours_of_from? hj hs.lt_length
  have hreorder := h.reorder_eq_map hs d
  rw [hj, Option.map_some] at hreorder
  obtain ⟨q, hq, hlength⟩ := h.exists_stands_swapped hs hneighbours
  have hback := (h.reorder hreorder).reorder_eq_map hq d.opposite
  rw [hlength, Direction.from?_opposite hj hs.lt_length, Option.map_some,
    h.swapped_swapped hs hneighbours] at hback
  refine ⟨?_, ?_, ?_⟩
  · rw [Store.reorder, hreorder]
    rfl
  · rw [Store.move, h.move_eq_swapped hs hneighbours]
    rfl
  · rw [Store.reorder, withRoot, hback]
    rfl

include hs in
/-- Where there is no neighbour, no step is made. -/
theorem reorder_of_edge (hj : d.from? i p.children.length = none) :
    s.reorder (.text x) d.value = (.ok false, s) := by
  rw [Store.reorder, h.reorder_eq_map hs d, hj]
  rfl

/-- The root has no place among others, and neither has what is not in the tree. -/
theorem reorder_of_absent {id : Value}
    (hid : id = s.root.field "id" ∨ ∀ n ∈ nodes s.root, n.field "id" ≠ id) :
    s.reorder id d.value = (.ok false, s) := by
  have hnone : locateInner s.root id = .ok none := by
    obtain ⟨found, hl⟩ := h.exists_locateInner id
    cases found with
    | none => exact hl
    | some v =>
      obtain ⟨hplaced, hsame, -⟩ := locateInner_eq hl
      obtain ⟨name, hname, -⟩ := (h.sound _ hplaced.mem_nodes).named
      have hv : v.node.field "id" = id := by
        rw [Visit.id, hname, Value.text_same_iff] at hsame
        rw [hname, hsame]
      rcases hid with rfl | hid
      · rw [← hv, hname] at hl
        exact absurd (hv.symm.trans hname) (h.rootId_ne_of_locateInner hl)
      · exact absurd hv (hid _ hplaced.mem_nodes)
  rw [Store.reorder, Tree.reorder, d.ofValue?_value]
  simp only [hnone]
  rfl

end Steps

/-- What a step does to a node that stands at one of `count` places. -/
structure Reorders (s : Store) (x t : String) (i count : Nat) : Prop where
  up_iff : (s.reorder (.text x) (.text "up")).1 = .ok true ↔ 0 < i
  down_iff : (s.reorder (.text x) (.text "down")).1 = .ok true ↔ i + 1 < count
  first : i = 0 → s.reorder (.text x) (.text "up") = (.ok false, s)
  last : i + 1 = count → s.reorder (.text x) (.text "down") = (.ok false, s)
  /-- The place is counted among the children without the node. -/
  up : 0 < i → s.reorder (.text x) (.text "up") = s.move (.text x) (.text t) (.int (i - 1))
  down : i + 1 < count →
    s.reorder (.text x) (.text "down") = s.move (.text x) (.text t) (.int (i + 1))
  up_down : 0 < i → (s.reorder (.text x) (.text "up")).2.reorder (.text x) (.text "down") =
    (.ok true, s)
  down_up : i + 1 < count → (s.reorder (.text x) (.text "down")).2.reorder (.text x) (.text "up") =
    (.ok true, s)

/-- A node steps up or down just if there is a neighbour on that side. The step is a move to the
place of the neighbour, and the step back undoes it. The root makes no steps, and neither does what
is not in the tree. -/
theorem reorder_reorders {s : Store} (h : WellFormed s.root) :
    (∀ x t i p n, Stands s.root x t i p n → Reorders s x t i p.children.length) ∧
      ∀ id, (id = s.root.field "id" ∨ ∀ n ∈ nodes s.root, n.field "id" ≠ id) →
        s.reorder id (.text "up") = (.ok false, s) ∧
          s.reorder id (.text "down") = (.ok false, s) := by
  refine ⟨fun x t i p n hs => ?_, fun id hid =>
    ⟨reorder_of_absent h (d := .up) hid, reorder_of_absent h (d := .down) hid⟩⟩
  have hlt := hs.lt_length
  have htop : i = 0 → s.reorder (.text x) (.text "up") = (.ok false, s) := fun hi =>
    reorder_of_edge h hs (d := .up) (if_pos hi)
  have hbottom : ¬ i + 1 < p.children.length →
      s.reorder (.text x) (.text "down") = (.ok false, s) := fun hi =>
    reorder_of_edge h hs (d := .down) (if_neg hi)
  have hup (hi : 0 < i) := reorder_of_next h hs (d := .up) (if_neg (Nat.ne_of_gt hi))
  have hdown (hi : i + 1 < p.children.length) := reorder_of_next h hs (d := .down) (if_pos hi)
  refine ⟨⟨fun hdone => ?_, fun hi => ?_⟩, ⟨fun hdone => ?_, fun hi => ?_⟩, htop,
    fun hi => hbottom (by omega), fun hi => ?_, fun hi => ?_, fun hi => ?_, fun hi => ?_⟩
  · refine Nat.pos_of_ne_zero fun hi => ?_
    rw [htop hi] at hdone
    cases hdone
  · exact congrArg Prod.fst (hup hi).1
  · by_contra hi
    rw [hbottom hi] at hdone
    cases hdone
  · exact congrArg Prod.fst (hdown hi).1
  · have hplace : (i : Int) - 1 = (i - 1 : Nat) := by omega
    rw [hplace]
    exact (hup hi).1.trans (hup hi).2.1.symm
  · exact (hdown hi).1.trans (hdown hi).2.1.symm
  · have hstep : s.reorder (.text x) (.text "up") = _ := (hup hi).1
    rw [hstep]
    exact (hup hi).2.2
  · have hstep : s.reorder (.text x) (.text "down") = _ := (hdown hi).1
    rw [hstep]
    exact (hdown hi).2.2

theorem stands_column : Stands furnished.root "column" "cupboard" 1 cupboard column :=
  ⟨self_mem_nodes cupboard, rfl, rfl, rfl⟩

/-- The column goes up in front of the shelf, where it can go no further, and down again. -/
theorem reorder_reorders_column :
    WellFormed furnished.root ∧ Stands furnished.root "column" "cupboard" 1 cupboard column ∧
      Reorders furnished "column" "cupboard" 1 2 ∧
      (furnished.reorder (.text "column") (.text "up")).1 = .ok true ∧
      furnished.reorder (.text "column") (.text "down") = (.ok false, furnished) ∧
      furnished.reorder (.text "cupboard") (.text "up") = (.ok false, furnished) := by
  have hall := reorder_reorders wellFormed_cupboard.1 (s := furnished)
  have hcolumn := hall.1 "column" "cupboard" 1 cupboard column stands_column
  exact ⟨wellFormed_cupboard.1, stands_column, hcolumn, hcolumn.up_iff.mpr (by decide),
    hcolumn.last rfl, (hall.2 (.text "cupboard") (.inl rfl)).1⟩

end PageBuilder.Store
