import PageBuilder.Proofs.Tree.Adopted
import PageBuilder.Proofs.Tree.Relist

/-!
What an insertion makes of a tree.

* `Accepts`: the containers and values with which an insertion is possible;
* `Inserted`: the tree after it, and what the value is stored as;
* `WellFormed.insertSettled_of_refused`, `WellFormed.insertSettled_at`: without a container nothing
  is inserted, and below one a value is inserted as it settles;
* `WellFormed.ids_appended`: the identifiers of the tree with a further member.
-/

namespace PageBuilder.Tree

open PageBuilder.Fresh (Adopted Allotted Insertable TakenIn Unsettled settle)

/-- The texts that name the nodes of a tree. -/
def namesIn (root : Value) : List String :=
  ((nodes root).map fun n => n.field "id").filterMap Value.text?

/-- An identifier is that of a container, and the value can be inserted. -/
def Accepts (root parentId node : Value) : Prop :=
  (∃ p ∈ nodes root, p.field "id" = parentId ∧ p.isContainer) ∧ Insertable node

/-- The tree in which a child list has one member more at its end. -/
def appended (y : String) (item root : Value) : Value :=
  relist (fun id items => if id.isTextOf y then items ++ [item] else items) root

/-- What a tree is after a value was inserted: one child list has a new member at its end, which is
what is stored of the value, and all that the value holds has got identifiers beside those of the
tree. -/
structure Inserted (source : IdSource) (root node : Value) (y id : String) (item root' : Value) :
    Prop where
  tree : root' = appended y item root
  adopted : Adopted node item
  id : item.field "id" = .text id
  allotted : ∃ names, (nodes item).map (fun n => n.field "id") = names.map .text ∧
    Allotted source (namesIn root) (held node) names

/-- What becomes of an insertion with the value that is settled for it. -/
def insertion (root : Value) (y : String) :
    Except Unsettled Value × Allotment → Except Fault (Option (Value × String)) × Nat
  | (.error .unfit, a) => (.ok none, a.drawn)
  | (.error .drawsExhausted, a) => (.error .drawsExhausted, a.drawn)
  | (.ok item, a) =>
    (.ok (some (appended y item root, ((item.field "id").text?).getD "")), a.drawn)

theorem length_namesIn_le (root : Value) : (namesIn root).length ≤ (nodes root).length := by
  have hle := List.length_filterMap_le Value.text? ((nodes root).map fun n => n.field "id")
  rwa [List.length_map] at hle

section Insertions

variable {root : Value} (h : WellFormed root)

include h

/-- Without a container of that name nothing is inserted. -/
theorem WellFormed.insertSettled_of_refused
    (settle : Allotment → Except Unsettled Value × Allotment) (drawn : Nat) {parentId : Value}
    (hp : ¬ ∃ p ∈ nodes root, p.field "id" = parentId ∧ p.isContainer) :
    insertSettled settle drawn root parentId = (.ok none, drawn) := by
  have hwalk := walk_of_isObject h.isObject
  rw [insertSettled, hwalk]
  cases hfind : (walkFrom [.start root]).find? fun v => v.id.same parentId with
  | none => simp only [hfind]
  | some v =>
    have hv : v.node ∈ nodes root :=
      (placed_of_mem_walk hwalk v (List.mem_of_find?_eq_some hfind)).mem_nodes
    obtain ⟨y, hy, -⟩ := (h.sound v.node hv).named
    have hsame := List.find?_some hfind
    have hparent : v.node.isContainer = false := by
      rw [← Bool.not_eq_true]
      intro hc
      rw [Visit.id, hy, Value.text_same_iff] at hsame
      exact hp ⟨v.node, hv, hy.trans hsame.symm, hc⟩
    simp only [hfind, hparent]
    rfl

theorem WellFormed.insert_of_refused (source : IdSource) (drawn : Nat) {parentId : Value}
    (hp : ¬ ∃ p ∈ nodes root, p.field "id" = parentId ∧ p.isContainer) (node : Value) :
    Tree.insert source drawn root parentId node = (.ok none, drawn) :=
  h.insertSettled_of_refused _ drawn hp

section Container

variable {p : Value} {y : String} (hp : p ∈ nodes root) (hy : p.field "id" = .text y)
  (hc : p.isContainer = true)

include hp hy hc

/-- The container is found, and the new member is put into its child list. -/
theorem WellFormed.exists_appended : ∃ v, locate root (.text y) = .ok (some v) ∧ v.node = p ∧
    ∀ item, appended y item root =
      editAt v.address (Tree.editChildren fun children => children ++ [item]) root := by
  obtain ⟨v, hl, rfl⟩ := h.locate_eq_some hp hy
  exact ⟨v, hl, rfl, fun item => h.relist_at (locate_eq hl).1.node hp hy hc fun items =>
    items ++ [item]⟩

theorem WellFormed.ids_appended {item : Value} (ho : item.isObject) :
    ((nodes (appended y item root)).map fun n => n.field "id").Perm
      ((nodes root).map (fun n => n.field "id") ++ (nodes item).map fun n => n.field "id") := by
  obtain ⟨v, hl, rfl, heq⟩ := h.exists_appended hp hy hc
  have hplaced := (locate_eq hl).1
  have hlist : ((v.node.children ++ [item]) ++ []).Perm (v.node.children ++ [item]) := by
    rw [List.append_nil]
  have hperm := map_nodes_perm (g := fun n => n.field "id")
    (f := fun children => children ++ [item])
    (fun f n => field_editChildren (by decide) f n) hplaced.node hplaced.isObject hlist
  rwa [← heq, nodesOf_nil, List.map_nil, List.append_nil, nodesOf_singleton ho] at hperm

/-- Below a container a value is inserted as it settles. -/
theorem WellFormed.insertSettled_at (settle : Allotment → Except Unsettled Value × Allotment)
    (drawn : Nat) : insertSettled settle drawn root (.text y) =
      insertion root y (settle ⟨namesIn root, drawn⟩) := by
  obtain ⟨v, hl, rfl, heq⟩ := h.exists_appended hp hy hc
  obtain ⟨visits, hwalk, hfind⟩ := map_eq_ok_iff.mp hl
  have hhashable := all_isHashable_ids h.sound
  rw [← map_id_walk hwalk] at hhashable
  rw [namesIn, ← map_id_walk hwalk, insertSettled, hwalk]
  simp only [hfind, hc, hhashable]
  rcases settle _ with ⟨⟨⟨⟩⟩ | item, a⟩
  · rfl
  · rfl
  · rw [insertion, heq]
    rfl

theorem WellFormed.insert_at (source : IdSource) (drawn : Nat) (node : Value) :
    Tree.insert source drawn root (.text y) node =
      insertion root y (settle source node ⟨namesIn root, drawn⟩) :=
  h.insertSettled_at hp hy hc _ drawn

end Container

end Insertions

end PageBuilder.Tree
