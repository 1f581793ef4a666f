import PageBuilder.Proofs.Store.CutPaste
import PageBuilder.Proofs.Tree.Update

/-!
Updates of a node and edits of the structure can change places.

* `Edit.Spares`: the edits that keep the node with an identifier, and do not update it;
* `update_apply`: an update revises the tree, or changes nothing;
* `Edit.Spares.apply_mapNodes`: an edit does to a revised tree what it does to the tree;
* `Edit.Spares.any_reaches`: it neither brings in nor takes away nodes that an update reaches;
* `update_comm`: so the order of the two calls does not matter, neither for what they say nor for
  the store.
-/

namespace PageBuilder.Tree

theorem any_eq_of_perm {ns ms : List Value} {p : Value → Bool}
    (h : (ns.map p).Perm (ms.map p)) : ns.any p = ms.any p := by
  have hns : ns.any p = (ns.map p).any fun b => b := by rw [List.any_map]; rfl
  have hms : ms.any p = (ms.map p).any fun b => b := by rw [List.any_map]; rfl
  rw [hns, hms]
  exact h.any_eq

end PageBuilder.Tree

namespace PageBuilder.Store

open PageBuilder.Tree

/-- The store with all nodes of its tree revised. -/
def mapNodes (s : Store) (f : Value → Value) : Store := s.withRoot (Tree.mapNodes f s.root)

/-- The edits of the structure that do not remove the node with an identifier, and the updates of
other nodes. -/
inductive Edit.Spares (s : Store) (id : Value) : Edit → Prop where
  | move (other targetId index : Value) : Spares s id (.move other targetId index)
  | reorder (other direction : Value) : Spares s id (.reorder other direction)
  | remove {other : Value}
      (apart : ∀ n ∈ nodes s.root, n.field "id" = other → ∀ m ∈ nodes n, m.field "id" ≠ id) :
      Spares s id (.remove other)
  | update {other : Value} (apart : other ≠ id) (news : Value) : Spares s id (.update other news)

section Mapped

variable (s : Store) {f : Value → Value} (hf : Revision f)

theorem commit_mapNodes (f : Value → Value) (edited : Except Fault (Option Value)) :
    (s.mapNodes f).commit (edited.map (Option.map (Tree.mapNodes f))) =
      ((s.commit edited).1, (s.commit edited).2.mapNodes f) := by
  rcases edited with e | _ | root <;> rfl

theorem deselect_mapNodes (f : Value → Value) (removed : List Value) :
    (s.mapNodes f).deselect removed =
      ((s.deselect removed).1, (s.deselect removed).2.mapNodes f) := by
  have hselected : (s.mapNodes f).selected = s.selected := rfl
  unfold deselect
  rw [hselected]
  split
  · rfl
  · split
    · rfl
    · rfl

include hf

theorem remove_mapNodes (id : Value) :
    (s.mapNodes f).remove id = ((s.remove id).1, (s.remove id).2.mapNodes f) := by
  have hremove : Tree.remove (s.mapNodes f).root id = _ := Tree.remove_mapNodes hf s.root id
  unfold Store.remove
  rw [hremove]
  rcases Tree.remove s.root id with e | _ | ⟨root, removed⟩
  · rfl
  · rfl
  · exact deselect_mapNodes (s.withRoot root) f removed

end Mapped

theorem any_reaches_mapNodes (s : Store) {x y : Value} (hne : y ≠ x) (fields news : Value) :
    (nodes (s.mapNodes (revise x fields)).root).any (reaches y news) =
      (nodes s.root).any (reaches y news) := by
  have hf := revision_revise x fields
  have hread : ∀ n, reaches y news (Tree.mapNodes (revise x fields) n) = reaches y news n := by
    intro n
    rw [read_mapNodes hf (reaches_editChildren y news), reaches_revise hne]
  show (nodes (Tree.mapNodes (revise x fields) s.root)).any _ = _
  rw [nodes_mapNodes hf, List.any_map]
  simp only [Function.comp_def, hread]

section Commute

variable {s : Store} (h : WellFormed s.root)

include h

/-- An update revises the tree, or changes nothing. -/
theorem update_apply (id fields : Value) :
    (Edit.update id fields).apply s = if (nodes s.root).any (reaches id fields) then
      (.done, s.mapNodes (revise id fields)) else (.refused, s) := by
  simp only [Edit.apply, Store.update, h.update_eq_ite]
  split
  · rfl
  · rfl

/-- An edit does to a revised tree what it does to the tree. -/
theorem Edit.Spares.apply_mapNodes {id fields : Value} {e : Edit} (he : e.Spares s id)
    (hrevised : WellFormed (s.mapNodes (revise id fields)).root) :
    e.apply (s.mapNodes (revise id fields)) =
      ((e.apply s).1, (e.apply s).2.mapNodes (revise id fields)) := by
  have hf := revision_revise id fields
  cases he with
  | move other targetId index =>
    have hmove : Tree.move (s.mapNodes (revise id fields)).root other targetId index = _ :=
      move_mapNodes hf h other targetId index
    simp only [Edit.apply, Store.move, hmove, commit_mapNodes]
  | reorder other direction =>
    have hreorder : Tree.reorder (s.mapNodes (revise id fields)).root other direction = _ :=
      reorder_mapNodes hf s.root other direction
    simp only [Edit.apply, Store.reorder, hreorder, commit_mapNodes]
  | @remove other =>
    simp only [Edit.apply, remove_mapNodes s hf]
  | @update other apart news =>
    rw [update_apply hrevised, any_reaches_mapNodes s apart, update_apply h]
    split
    · refine congrArg (fun root => (Verdict.done, s.withRoot root)) ?_
      show Tree.mapNodes _ (Tree.mapNodes _ s.root) = Tree.mapNodes _ (Tree.mapNodes _ s.root)
      rw [mapNodes_mapNodes _ hf, mapNodes_mapNodes _ (revision_revise other news)]
      simp only [revise_comm apart fields news]
    · rfl

/-- An edit neither brings in nor takes away nodes that an update reaches. -/
theorem Edit.Spares.any_reaches {id : Value} {e : Edit} (he : e.Spares s id) (fields : Value) :
    (nodes (e.apply s).2.root).any (reaches id fields) =
      (nodes s.root).any (reaches id fields) := by
  have hread := reaches_editChildren id fields
  cases he with
  | move other targetId index =>
    show (nodes (s.move other targetId index).2.root).any _ = _
    unfold Store.move
    rcases hmove : Tree.move s.root other targetId index with _ | _ | root
    · rfl
    · rfl
    · exact any_eq_of_perm (map_nodes_move hread hmove)
  | reorder other direction =>
    show (nodes (s.reorder other direction).2.root).any _ = _
    unfold Store.reorder
    rcases hreorder : Tree.reorder s.root other direction with _ | _ | root
    · rfl
    · rfl
    · exact any_eq_of_perm (map_nodes_reorder hread hreorder)
  | @remove other apart =>
    show (nodes (s.remove other).2.root).any _ = _
    unfold Store.remove
    rcases hremove : Tree.remove s.root other with _ | _ | ⟨root, removed⟩
    · rfl
    · rfl
    · rw [deselect_root]
      obtain ⟨v, hl, -, -, rfl⟩ := remove_eq hremove
      obtain ⟨hplaced, hsame, p, -, -, habove, hchild⟩ := locateInner_eq hl
      obtain ⟨hin, x, rfl, hid⟩ := h.exists_name hplaced hsame
      have hcut : (nodes v.node).any (reaches id fields) = false := by
        rw [List.any_eq_false]
        intro m hm hreaches
        exact apart v.node hin hid m hm (id_of_reaches hreaches)
      have hperm := map_nodes_detach hread habove hchild hplaced.isObject
      rw [← List.map_append] at hperm
      rw [← any_eq_of_perm hperm, List.any_append, hcut, Bool.or_false]
      rfl
  | @update other apart news =>
    rw [update_apply h]
    split
    · exact any_reaches_mapNodes s apart.symm news fields
    · rfl

/-- An update of a node and an edit that spares it can change places: both say the same, and the
store that is left is the same. -/
theorem update_comm (id fields : Value) {e : Edit} (he : e.Spares s id) :
    ((Edit.update id fields).apply (e.apply s).2).1 = ((Edit.update id fields).apply s).1 ∧
      (e.apply ((Edit.update id fields).apply s).2).1 = (e.apply s).1 ∧
      (e.apply ((Edit.update id fields).apply s).2).2 =
        ((Edit.update id fields).apply (e.apply s).2).2 := by
  have hafter : WellFormed (e.apply s).2.root := (e.apply_step s).wellFormed h
  have hfirst := update_apply h id fields
  have hsecond := update_apply hafter id fields
  rw [he.any_reaches h] at hsecond
  cases hany : (nodes s.root).any (reaches id fields) with
  | false =>
    rw [hany, if_neg Bool.false_ne_true] at hfirst hsecond
    simp only [hfirst, hsecond, and_self]
  | true =>
    rw [hany, if_pos rfl] at hfirst hsecond
    have hrevised : WellFormed (s.mapNodes (revise id fields)).root := by
      have hstep := ((Edit.update id fields).apply_step s).wellFormed h
      rwa [hfirst] at hstep
    simp only [hfirst, hsecond, he.apply_mapNodes h hrevised, and_self]

end Commute

def turned : Edit :=
  .update (.text "shelf") (.ofFields [("type", .text "column"), ("label", .text "Shelf")])

def cleared : Edit := .remove (.text "column")

/-- A row becomes a column and is given a label, and another column is removed. -/
theorem update_comm_shelf :
    (turned.apply (cleared.apply furnished).2).1 = (turned.apply furnished).1 ∧
      (cleared.apply (turned.apply furnished).2).1 = (cleared.apply furnished).1 ∧
      (cleared.apply (turned.apply furnished).2).2 =
        (turned.apply (cleared.apply furnished).2).2 := by
  refine update_comm wellFormed_cupboard.1 _ _ (.remove fun n hn hid m hm hshelf => ?_)
  obtain rfl := wellFormed_cupboard.1.eq_of_id_eq column_mem_cupboard hn hid
  have hids : (nodes column).map (fun n => n.field "id") = [.text "column", .text "door"] := by cbv
  have hmem : Value.text "shelf" ∈ (nodes column).map fun n => n.field "id" :=
    hshelf ▸ List.mem_map_of_mem (f := fun n => n.field "id") hm
  rw [hids] at hmem
  simp at hmem

end PageBuilder.Store
