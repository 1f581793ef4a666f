import PageBuilder.Proofs.Store.CutPaste
import PageBuilder.Proofs.Tree.Preorder

/-!
What is found in a tree, and where.

* `find_ne_none_iff`: something is found under the identifiers that are listed;
* `WellFormed.findParent_iff`: in a well-formed tree the parent of an identifier is the one node that
  has it among its children;
* `walk_in_preorder`: the walk, the nodes that are found by it, and their parents.
-/

namespace PageBuilder.Tree

open Store (cupboard shelf shelf_mem_cupboard wellFormed_cupboard)

variable {root : Value}

theorem find_ne_none_iff (h : root.isObject) (id : Value) :
    ∃ found listed, find root id = .ok found ∧ ids root = .ok listed ∧
      (found ≠ none ↔ ∃ i ∈ listed, i.same id = true) := by
  have hwalk := walk_of_isObject h
  refine ⟨_, _, by rw [find, locate, hwalk]; rfl, by rw [ids, hwalk]; rfl, ?_⟩
  rw [Option.ne_none_iff_isSome, Option.isSome_map, List.find?_isSome]
  simp only [List.mem_map, exists_exists_and_eq_and]

theorem WellFormed.findParent_iff (h : WellFormed root) (id : Value) :
    ∃ found, findParent root id = .ok found ∧
      ∀ p, found = some p ↔ p ∈ nodes root ∧ ∃ c ∈ p.children, c.field "id" = id := by
  obtain ⟨found, hlocate⟩ := h.exists_locate id
  have hparent : findParent root id = .ok (found.bind Visit.parent) := by
    rw [findParent, hlocate]
    rfl
  refine ⟨_, hparent, fun p => ⟨fun hp => ?_, ?_⟩⟩
  · obtain ⟨v, rfl, hp⟩ := Option.bind_eq_some_iff.mp hp
    have hfind : find root id = .ok (some v.node) := by
      rw [find, hlocate]
      rfl
    obtain ⟨above, -, habove, hchild⟩ := (locate_eq hlocate).1.inner p hp
    have hmem : v.node ∈ p.children := List.mem_of_getElem? hchild
    exact ⟨mem_nodes_of_nodeAt? habove (isObject_of_mem_children hmem), v.node, hmem,
      (h.mem_of_find hfind).2⟩
  · rintro ⟨hp, c, hc, rfl⟩
    obtain ⟨x, hx, -⟩ := (h.sound c (h.mem_nodes_child hp hc)).named
    have hfound := h.findParent_eq_some hp hc hx
    rw [← hx, hparent] at hfound
    exact Except.ok.inj hfound

/-- A tree is walked in the order of the recursion, whatever is among its children, and every node
but the root is told with the parent that it stands in, at its place there. What is looked up is the
first in that order with the identifier, and something is found under just those identifiers that
are listed. In a well-formed tree the parent that is found for an identifier is the only node with
that identifier among its children. -/
theorem walk_in_preorder (h : root.isObject) :
    let order := (Located.root root).preorder
    (∃ visits, walk root = .ok visits ∧ visits.map Visit.located = order) ∧
    (∀ l ∈ order, l = .root root ∨
      ∃ p ∈ nodes root, l.parent = some p ∧ p.children[l.index]? = some l.node) ∧
    (∀ id, ∃ found, locate root id = .ok found ∧
      found.map Visit.located = order.find? fun l => (l.node.field "id").same id) ∧
    (∀ id, ∃ found listed, find root id = .ok found ∧ ids root = .ok listed ∧
      (found ≠ none ↔ ∃ i ∈ listed, i.same id = true)) ∧
    (∀ x : String, ∃ found listed, find root (.text x) = .ok found ∧ ids root = .ok listed ∧
      (found ≠ none ↔ .text x ∈ listed)) ∧
    (WellFormed root → ∀ id, ∃ found, findParent root id = .ok found ∧
      ∀ p, found = some p ↔ p ∈ nodes root ∧ ∃ c ∈ p.children, c.field "id" = id) := by
  have hwalk := walk_of_isObject h
  refine ⟨⟨_, hwalk, map_located_walk hwalk⟩, (Located.root root).placed_of_mem_preorder,
    locate_preorder h, find_ne_none_iff h, fun x => ?_, fun hwell => hwell.findParent_iff⟩
  obtain ⟨found, listed, hfind, hlisted, hiff⟩ := find_ne_none_iff h (.text x)
  refine ⟨found, listed, hfind, hlisted, hiff.trans ?_⟩
  simp only [Value.same_text_iff, exists_eq_right]

/-- The shelf has what stands on its left, and nothing else has. -/
theorem walk_in_preorder_cupboard :
    cupboard.isObject = true ∧ WellFormed cupboard ∧
      findParent cupboard (.text "left") = .ok (some shelf) ∧
      ∀ p ∈ nodes cupboard, ∀ c ∈ p.children, c.field "id" = .text "left" → p = shelf := by
  have hobject : cupboard.isObject = true := rfl
  obtain ⟨-, -, -, -, -, hparent⟩ := walk_in_preorder hobject
  obtain ⟨found, hfound, hiff⟩ := hparent wellFormed_cupboard.1 (.text "left")
  have hshelf : found = some shelf :=
    (hiff shelf).mpr ⟨shelf_mem_cupboard, _, List.mem_cons_self .., rfl⟩
  refine ⟨hobject, wellFormed_cupboard.1, hshelf ▸ hfound, fun p hp c hc hid => ?_⟩
  have hp : found = some p := (hiff p).mpr ⟨hp, c, hc, hid⟩
  exact Option.some.inj (hp.symm.trans hshelf)

end PageBuilder.Tree
