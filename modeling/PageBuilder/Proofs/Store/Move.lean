import PageBuilder.Proofs.Store.CutPaste

/-!
What a move does.

* `Movable`: the pairs of a node and a container between which a move is possible;
* `relocated`: the tree after the move, told child list by child list;
* `bare`, `outline`: what a node is by itself, without its children and with their identifiers;
* `WellFormed.move_eq_relocated`, `WellFormed.move_eq_none`: a move is made just where it is
  possible;
* `Store.move_relocates`: the same of a store, with what becomes of the other child lists.
-/

namespace PageBuilder.Tree

/-- One name is that of a node other than the root, the other that of a container which is not
below that node. -/
def Movable (root : Value) (x t : String) : Prop :=
  ∃ n ∈ nodes root, ∃ p ∈ nodes root, n.field "id" = .text x ∧ n ≠ root ∧
    p.field "id" = .text t ∧ p.isContainer = true ∧ p ∉ nodes n

/-- A list with a further member, whose place is brought between the start and the end. -/
def placed (index : Int) (n : Value) (items : List Value) : List Value :=
  items.insertIdx (min (max index 0) items.length).toNat n

/-- The tree in which a node is taken out of its child list and put into another one. -/
def relocated (n : Value) (x t : String) (index : Int) (root : Value) : Value :=
  relist (fun id items =>
    if id.isTextOf t then placed index n (without x items) else without x items) root

/-- A node without its children: all that a change of child lists leaves as it is. -/
def bare (v : Value) : Value := editChildren (fun _ => []) v

/-- A node by itself: what it has besides children, and the identifiers of these if it has a child
list. -/
def outline (v : Value) : Value × Option (List Value) :=
  (bare v, v.childList?.map fun items => items.map fun c => c.field "id")

/-- What a tree is after a node was moved: the child lists are those of the relocated tree, and the
nodes are the same but for their children. The one child list in which the node was has lost it, and
nothing is taken from the others. -/
structure Relocated (n : Value) (x t : String) (index : Int) (root root' : Value) : Prop where
  tree : root' = relocated n x t index root
  nodes : ((nodes root').map bare).Perm ((nodes root).map bare)
  parent : ∀ p ∈ Tree.nodes root, ∀ i, p.children[i]? = some n →
    without x p.children = p.children.eraseIdx i
  others : ∀ p ∈ Tree.nodes root, n ∉ p.children → without x p.children = p.children

theorem insertAt_eq_placed (index : Int) (n : Value) (items : List Value) :
    insertAt index n items = placed index n items := by
  have hplace : min index.toNat items.length = (min (max index 0) items.length).toNat := by omega
  rw [insertAt, placed, hplace]

theorem bare_editChildren (f : List Value → List Value) (v : Value) :
    bare (editChildren f v) = bare v :=
  editChildren_editChildren _ f v

section Moves

variable {root : Value} (h : WellFormed root) {x t : String} (index : Int)

include h

/-- A possible move is made. -/
theorem WellFormed.move_eq_relocated {n : Value} (hn : n ∈ nodes root)
    (hx : n.field "id" = .text x) (hm : Movable root x t) :
    Tree.move root (.text x) (.text t) (.int index) =
      .ok (some (relocated n x t index root)) := by
  obtain ⟨m, hmem, p, hp, hmx, hne, ht, hc, hout⟩ := hm
  obtain rfl := h.eq_of_id_eq hn hmem (hmx.trans hx.symm)
  have hroot : root.field "id" ≠ .text x := by
    intro hid
    exact hne (h.eq_of_id_eq (self_mem_nodes root) hn (hx.trans hid.symm))
  obtain ⟨hxt, v, target, rfl, hl, hrest, hlt, htarget⟩ :=
    h.exists_target hn hx hroot hp ht hc hout
  obtain ⟨hat, hsame⟩ := locate_eq hlt
  have hid : target.node.field "id" = .text t := (Value.same_text_iff _ _).mp hsame
  have hplace : editAt target.address (Tree.editChildren (insertAt index v.node))
      (Tree.detach root v) = relocated v.node x t index root := by
    rw [funext (insertAt_eq_placed index v.node),
      ← hrest.relist_at hat.node hat.mem_nodes hid htarget, h.detach_eq_relist hl, relist_relist]
    · rfl
    · exact fun _ items => map_without (id_relist _) items
  rw [← hplace]
  exact h.move_eq_some hxt hroot hl hlt htarget rfl

/-- Whatever is moved could be moved: the container was not below the node, since it was found in
what was left. -/
theorem WellFormed.movable_of_move {root' : Value}
    (hm : Tree.move root (.text x) (.text t) (.int index) = .ok (some root')) :
    Movable root x t := by
  obtain ⟨v, target, place, hl, hlt, hc, -, -⟩ := move_eq hm
  obtain ⟨hplaced, hsame, above, -, -, habove, hchild⟩ := locateInner_eq hl
  obtain ⟨hat, hsameTarget⟩ := locate_eq hlt
  have hx : v.node.field "id" = .text x := (Value.same_text_iff _ _).mp hsame
  have hroot := h.rootId_ne_of_locateInner hl
  have hread : (target.node.field "id", target.node.kind?) ∈
      (nodes root).map fun n => (n.field "id", n.kind?) := by
    refine (map_nodes_detach (g := fun n => (n.field "id", n.kind?))
      (fun f n => by rw [field_editChildren (by decide), kind?_editChildren]) habove hchild
      hplaced.isObject).subset (List.mem_append_left _ ?_)
    exact List.mem_map_of_mem (f := fun n => (n.field "id", n.kind?)) hat.mem_nodes
  obtain ⟨p, hp, heq⟩ := List.mem_map.mp hread
  have hid : p.field "id" = target.node.field "id" := congrArg Prod.fst heq
  have hkind : p.kind? = target.node.kind? := congrArg Prod.snd heq
  refine ⟨v.node, hplaced.mem_nodes, p, hp, hx, ?_, ?_, ?_, ?_⟩
  · rintro heq
    exact hroot (heq ▸ hx)
  · exact hid.trans ((Value.same_text_iff _ _).mp hsameTarget)
  · rwa [Value.isContainer, hkind, ← Value.isContainer]
  · intro hbelow
    exact (List.nodup_append.mp (h.ids_detach hl)).2.2 _ (List.mem_map_of_mem hat.mem_nodes) _
      (List.mem_map_of_mem hbelow) hid.symm

/-- A move between names never fails. -/
theorem WellFormed.exists_move :
    ∃ moved, Tree.move root (.text x) (.text t) (.int index) = .ok moved := by
  rw [Tree.move, h.rootId_eq]
  obtain ⟨found, hl⟩ := h.exists_locateInner (.text x)
  simp only [bind, Except.bind, pure, Except.pure, hl]
  split
  · exact ⟨_, rfl⟩
  · cases found with
    | none => exact ⟨_, rfl⟩
    | some v =>
      obtain ⟨hplaced, -, above, -, -, habove, hchild⟩ := locateInner_eq hl
      obtain ⟨found, hlt⟩ := (h.detach habove hchild hplaced.isObject).exists_locate (.text t)
      simp only [hlt]
      cases found with
      | none => exact ⟨_, rfl⟩
      | some target =>
        simp only [Value.integer]
        split
        · exact ⟨_, rfl⟩
        · exact ⟨_, rfl⟩

theorem WellFormed.move_eq_none (hm : ¬ Movable root x t) :
    Tree.move root (.text x) (.text t) (.int index) = .ok none := by
  obtain ⟨moved, hmoved⟩ := h.exists_move (x := x) (t := t) index
  cases moved with
  | none => exact hmoved
  | some root' => exact absurd (h.movable_of_move index hmoved) hm

theorem WellFormed.relocated_spec {n : Value} (hn : n ∈ nodes root)
    (hx : n.field "id" = .text x) (hm : Movable root x t) :
    Relocated n x t index root (relocated n x t index root) where
  tree := rfl
  nodes := map_nodes_move bare_editChildren (h.move_eq_relocated index hn hx hm)
  parent := fun p hp i hi => h.without_eq_eraseIdx hp hi hx
  others := by
    intro p hp hout
    refine without_eq_self fun d hd hdx => hout ?_
    obtain rfl := h.eq_of_id_eq hn (h.mem_nodes_child hp hd) (hdx.trans hx.symm)
    exact hd

end Moves

end PageBuilder.Tree

namespace PageBuilder.Store

open PageBuilder.Tree

/-- A move is made just where it is possible. Then the node stands at the place that was asked for
among the children of the container, and nothing else is changed; otherwise nothing is. -/
theorem move_relocates {s : Store} (h : WellFormed s.root) (x t : String) (index : Int) :
    ((s.move (.text x) (.text t) (.int index)).1 = .ok true ↔ Movable s.root x t) ∧
      (∀ n ∈ nodes s.root, n.field "id" = .text x → Movable s.root x t →
        ∃ root', s.move (.text x) (.text t) (.int index) = (.ok true, s.withRoot root') ∧
          Relocated n x t index s.root root') ∧
      (¬ Movable s.root x t → s.move (.text x) (.text t) (.int index) = (.ok false, s)) := by
  have hrefused : ¬ Movable s.root x t →
      s.move (.text x) (.text t) (.int index) = (.ok false, s) := by
    intro hm
    rw [Store.move, h.move_eq_none index hm]
    rfl
  have hmade : ∀ n ∈ nodes s.root, n.field "id" = .text x → Movable s.root x t →
      s.move (.text x) (.text t) (.int index) =
        (.ok true, s.withRoot (relocated n x t index s.root)) := by
    intro n hn hx hm
    rw [Store.move, h.move_eq_relocated index hn hx hm]
    rfl
  refine ⟨⟨fun hdone => ?_, fun hm => ?_⟩, fun n hn hx hm => ?_, hrefused⟩
  · by_contra hm
    rw [hrefused hm] at hdone
    cases hdone
  · obtain ⟨n, hn, -, -, hx, -⟩ := id hm
    rw [hmade n hn hx hm]
  · exact ⟨_, hmade n hn hx hm, h.relocated_spec index hn hx hm⟩

theorem movable_shelf : Movable furnished.root "shelf" "column" :=
  ⟨shelf, shelf_mem_cupboard, column, column_mem_cupboard, rfl, shelf_ne_cupboard, rfl, rfl,
    column_notMem_shelf⟩

/-- The row goes in front of the button, since there is no place before the first. -/
theorem move_relocates_shelf :
    WellFormed furnished.root ∧ Movable furnished.root "shelf" "column" ∧
      (∃ root', furnished.move (.text "shelf") (.text "column") (.int (-3)) =
          (.ok true, furnished.withRoot root') ∧
        Relocated shelf "shelf" "column" (-3) furnished.root root') ∧
      placed (-3) shelf (without "shelf" column.children) = shelf :: column.children :=
  ⟨wellFormed_cupboard.1, movable_shelf,
    (move_relocates wellFormed_cupboard.1 "shelf" "column" (-3)).2.1 shelf shelf_mem_cupboard rfl
      movable_shelf, by rfl⟩

end PageBuilder.Store
