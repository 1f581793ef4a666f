import PageBuilder.Proofs.Store.Insert
import PageBuilder.Proofs.Store.Operations

/-!
The selection while a tree is edited.

* `Selects`: nothing is selected, or the identifier of a node;
* `Act`: the calls that may be made, in any order;
* `Act.apply_selects`: one call keeps a selection from dangling;
* `Follows`: how the selection goes with removals, and stays through all other edits;
* `selects_after`: both after any sequence of calls.
-/

namespace PageBuilder.Tree

/-- The identifiers of the nodes of a tree, in the order of the nodes. -/
def idsIn (root : Value) : List Value := (nodes root).map fun n => n.field "id"

section Identifiers

variable {root root' : Value}

theorem exists_text_of_mem_idsIn (h : WellFormed root) {x : Value} (hx : x ∈ idsIn root) :
    ∃ s, x = .text s := by
  obtain ⟨n, hn, rfl⟩ := List.mem_map.mp hx
  exact (h.sound n hn).named.imp fun _ hid => hid.1

theorem idsIn_update (h : WellFormed root) {id fields : Value}
    (hu : Tree.update root id fields = .ok (some root')) : idsIn root' = idsIn root := by
  have hmarks := congrArg (List.map Prod.fst) (h.marks_update hu)
  rwa [marks, marks, List.map_map, List.map_map] at hmarks

theorem idsIn_reorder {id direction : Value}
    (hr : Tree.reorder root id direction = .ok (some root')) :
    (idsIn root').Perm (idsIn root) :=
  map_nodes_reorder (fun f n => field_editChildren (by decide) f n) hr

theorem idsIn_move {id targetId index : Value}
    (hm : Tree.move root id targetId index = .ok (some root')) :
    (idsIn root').Perm (idsIn root) :=
  map_nodes_move (fun f n => field_editChildren (by decide) f n) hm

/-- A removal takes the node that was found, with all below it. -/
theorem idsIn_remove {id : Value} {removed : List Value}
    (hr : Tree.remove root id = .ok (some (root', removed))) :
    ∃ n ∈ nodes root, (n.field "id").same id ∧ removed = idsIn n ∧
      (idsIn root' ++ idsIn n).Perm (idsIn root) := by
  obtain ⟨v, hl, hids, -, rfl⟩ := remove_eq hr
  obtain ⟨hplaced, hsame, p, -, -, habove, hchild⟩ := locateInner_eq hl
  rw [ids_eq hplaced.isObject] at hids
  cases hids
  exact ⟨v.node, hplaced.mem_nodes, hsame, rfl,
    map_nodes_detach (fun f n => field_editChildren (by decide) f n) habove hchild
      hplaced.isObject⟩

end Identifiers

end PageBuilder.Tree

namespace PageBuilder.Store

open PageBuilder.Tree

/-- Nothing is selected, or the identifier of a node. -/
def Selects (s : Store) : Prop := s.selected = .null ∨ s.selected ∈ idsIn s.root

/-- A call other than the choice of a selection, or a new tree, which has to be well-formed. -/
inductive Act where
  | operation (op : Operation) (unselecting : ∀ id, op ≠ .select id)
  | replaceTree (root : Value) (sound : WellFormed root)

def Act.apply (s : Store) : Act → Store
  | operation op _ => (op.apply s).2
  | replaceTree root _ => s.replaceTree root

/-- The store after some calls. -/
def after (s : Store) (acts : List Act) : Store := acts.foldl Act.apply s

/-! ## One call -/

section Calls

variable {s t : Store}

theorem Selects.mono (h : Selects s) (hsame : t.selected = s.selected)
    (hids : idsIn s.root ⊆ idsIn t.root) : Selects t := by
  rw [Selects, hsame]
  exact h.imp id fun hmem => hids hmem

@[simp] theorem commit_selected (s : Store) (edited : Except Fault (Option Value)) :
    (s.commit edited).2.selected = s.selected := by
  rcases edited with _ | _ | _ <;> rfl

theorem commit_selects (hs : Selects s) {edited : Except Fault (Option Value)}
    (h : ∀ root', edited = .ok (some root') → idsIn s.root ⊆ idsIn root') :
    Selects (s.commit edited).2 := by
  rcases edited with _ | _ | root'
  · exact hs
  · exact hs
  · exact hs.mono rfl (h root' rfl)

@[simp] theorem insert_selected (s : Store) (source : IdSource) (drawn : Nat)
    (parentId node : Value) :
    (s.insert source drawn parentId node).store.selected = s.selected := by
  unfold Store.insert inserted
  split <;> rfl

/-- All identifiers stay when a value is inserted, and that which is told is a new one. -/
theorem Inserting.idsIn_store {source : IdSource} {parentId node : Value} {i : Insertion}
    (h : WellFormed s.root) (hi : Inserting s source parentId node i) :
    idsIn s.root ⊆ idsIn i.store.root ∧
      ∀ id, i.result = .ok (some id) → .text id ∈ idsIn i.store.root := by
  cases hi with
  | @taken y id item root' haccepts htext hinserted =>
    obtain ⟨p, hp, hy, hc⟩ := haccepts.1
    rw [htext] at hy
    have ho := hinserted.adopted.isObject
    have hperm := h.ids_appended hp hy hc ho
    rw [← hinserted.tree] at hperm
    refine ⟨fun x hx => hperm.symm.subset (List.mem_append_left _ hx), fun id' hid => ?_⟩
    cases hid
    refine hperm.symm.subset (List.mem_append_right _ ?_)
    rw [← hinserted.id]
    exact List.mem_map_of_mem (f := fun n => n.field "id") (self_mem_nodes item)
  | refused => exact ⟨List.Subset.refl _, fun id hid => by cases hid⟩
  | exhausted => exact ⟨List.Subset.refl _, fun id hid => by cases hid⟩

theorem insert_selects (h : WellFormed s.root) (hs : Selects s) (source : IdSource) (drawn : Nat)
    (parentId node : Value) : Selects (s.insert source drawn parentId node).store :=
  hs.mono (insert_selected ..) ((inserting h source drawn parentId node).idsIn_store h).1

/-- What was added is selected under the identifier that it was stored under. -/
theorem add_selects (h : WellFormed s.root) (hs : Selects s) (source : IdSource) (drawn : Nat)
    (parentId kind : Value) : Selects (s.add source drawn parentId kind).store := by
  unfold Store.add
  split
  · exact hs
  · rename_i node drawn' _
    have hids := (inserting h source drawn' parentId node).idsIn_store h
    unfold Insertion.selecting
    split
    · rename_i id hid
      exact .inr (hids.2 id hid)
    · exact insert_selects h hs source drawn' parentId node

theorem accept_selects (hs : Selects s) (source : Value) :
    Selects (Document.accept s source).2 := by
  rcases s.accept_cases source with heq | ⟨root, heq⟩
  · rw [heq]
    exact hs
  · rw [heq]
    exact .inl rfl

theorem setContextValue_selected (s : Store) (key v : Value) :
    (s.setContextValue key v).2.selected = s.selected := by
  unfold setContextValue
  split
  · split <;> rfl
  · rfl

end Calls

/-! ## Removals -/

/-- What becomes of a store when a node is removed: all below the node goes with it, and so does the
selection if it is there. -/
structure Removed (s : Store) (id n : Value) (t : Store) : Prop where
  mem : n ∈ nodes s.root
  named : n.field "id" = id
  parted : (idsIn t.root ++ idsIn n).Perm (idsIn s.root)
  cleared : s.selected ∈ idsIn n → t.selected = .null
  kept : s.selected ∉ idsIn n → t.selected = s.selected

section Removals

variable {s : Store} (h : WellFormed s.root) (hs : Selects s)

include h hs

theorem Selects.isHashable : s.selected.isHashable = true := by
  rcases hs with hnull | hmem
  · rw [hnull]
    rfl
  · obtain ⟨x, hx⟩ := exists_text_of_mem_idsIn h hmem
    rw [hx]
    rfl

/-- A removal is made and takes the selection along, or nothing is changed. -/
theorem remove_cases (id : Value) :
    ((s.remove id).1 = .ok true ∧ ∃ n, Removed s id n (s.remove id).2) ∨
      ((s.remove id).1 ≠ .ok true ∧ (s.remove id).2 = s) := by
  rw [Store.remove]
  rcases hr : Tree.remove s.root id with f | _ | ⟨root', removed⟩
  · exact .inr ⟨by simp, rfl⟩
  · exact .inr ⟨by simp, rfl⟩
  · obtain ⟨n, hn, hsame, rfl, hperm⟩ := idsIn_remove hr
    have htexts : ∀ x ∈ idsIn n, ∃ y, x = .text y := fun x hx =>
      exists_text_of_mem_idsIn h (hperm.subset (List.mem_append_right _ hx))
    have hany : (idsIn n).any (·.alike s.selected) = true ↔ s.selected ∈ idsIn n := by
      rw [List.any_eq_true]
      constructor
      · rintro ⟨x, hx, halike⟩
        obtain ⟨y, rfl⟩ := htexts x hx
        rw [Value.text_alike_iff] at halike
        rwa [halike]
      · intro hmem
        obtain ⟨y, hy⟩ := htexts _ hmem
        exact ⟨_, hmem, by rw [hy, Value.text_alike_iff]⟩
    have hid : n.field "id" = id := by
      obtain ⟨y, hy, -⟩ := (h.sound n hn).named
      rw [hy, Value.text_same_iff] at hsame
      rw [hy, hsame]
    have hself := hs.isHashable h
    have hhashable : (s.withRoot root').selected.isHashable = true := hself
    have hdeselect := deselect_eq hhashable (idsIn n)
    refine .inl ?_
    simp only [hdeselect]
    refine ⟨trivial, n, hn, hid, hperm, fun hmem => if_pos (hany.mpr hmem), fun hout => ?_⟩
    exact if_neg fun hmem => hout (hany.mp hmem)

theorem remove_selects (id : Value) : Selects (s.remove id).2 := by
  rcases remove_cases h hs id with ⟨-, n, hremoved⟩ | ⟨-, heq⟩
  · by_cases hmem : s.selected ∈ idsIn n
    · exact .inl (hremoved.cleared hmem)
    · rw [Selects, hremoved.kept hmem]
      refine hs.imp_right fun hall => ?_
      exact (List.mem_append.mp (hremoved.parted.symm.subset hall)).resolve_right hmem
  · rw [heq]
    exact hs

end Removals

/-! ## Any calls -/

section Acts

variable {s : Store} (h : WellFormed s.root) (hs : Selects s)

include h hs

theorem Edit.apply_selects (e : Edit) : Selects (e.apply s).2 := by
  cases e with
  | insert source drawn parentId node => exact insert_selects h hs source drawn parentId node
  | add source drawn parentId kind => exact add_selects h hs source drawn parentId kind
  | update id fields =>
    refine commit_selects hs fun _ hu => ?_
    rw [idsIn_update h hu]
    exact List.Subset.refl _
  | remove id => exact remove_selects h hs id
  | reorder id direction => exact commit_selects hs fun _ hr => (idsIn_reorder hr).symm.subset
  | move id targetId index => exact commit_selects hs fun _ hm => (idsIn_move hm).symm.subset
  | setContextValue key v =>
    refine hs.mono (setContextValue_selected s key v) ?_
    rw [show ((Edit.setContextValue key v).apply s).2.root = s.root from
      setContextValue_root s key v]
    exact List.Subset.refl _

/-- One call leaves a well-formed tree, and a selection that does not dangle. -/
theorem Act.apply_selects (act : Act) :
    WellFormed (act.apply s).root ∧ Selects (act.apply s) := by
  cases act with
  | replaceTree root hroot => exact ⟨hroot, .inl rfl⟩
  | operation op hop =>
    refine ⟨(op.apply_step s).wellFormed h, ?_⟩
    cases op with
    | edit e => exact e.apply_selects h hs
    | resetContext context => exact hs
    | select id => exact absurd rfl (hop id)
    | runActions env raws locals replies =>
      unfold Act.apply Operation.apply
      simp only
      split <;> exact hs
    | load source => exact accept_selects hs source

end Acts

/-- How the selection goes with an edit: only a removal takes it away, and just if it takes the
selected node. -/
structure Follows (t : Store) : Prop where
  removed : ∀ id, (t.remove id).1 = .ok true → ∃ n, Removed t id n (t.remove id).2
  notRemoved : ∀ id, (t.remove id).1 ≠ .ok true → (t.remove id).2 = t
  moved : ∀ id targetId index, (t.move id targetId index).2.selected = t.selected
  reordered : ∀ id direction, (t.reorder id direction).2.selected = t.selected
  updated : ∀ id fields, (t.update id fields).2.selected = t.selected
  inserted : ∀ source drawn parentId node,
    (t.insert source drawn parentId node).store.selected = t.selected

theorem follows {t : Store} (h : WellFormed t.root) (ht : Selects t) : Follows t where
  removed := by
    intro id hdone
    rcases remove_cases h ht id with ⟨-, hremoved⟩ | ⟨hnot, -⟩
    · exact hremoved
    · exact absurd hdone hnot
  notRemoved := by
    intro id hnot
    rcases remove_cases h ht id with ⟨hdone, -⟩ | ⟨-, heq⟩
    · exact absurd hdone hnot
    · exact heq
  moved := fun _ _ _ => commit_selected t _
  reordered := fun _ _ => commit_selected t _
  updated := fun _ _ => commit_selected t _
  inserted := insert_selected t

/-- After whatever calls, nothing is selected or a node of the tree, and the selection follows the
next edit. -/
theorem selects_after {s : Store} (h : WellFormed s.root) (hs : Selects s) (acts : List Act) :
    WellFormed (s.after acts).root ∧ Selects (s.after acts) ∧ Follows (s.after acts) := by
  induction acts generalizing s with
  | nil => exact ⟨h, hs, follows h hs⟩
  | cons act acts ih =>
    obtain ⟨hnext, hsnext⟩ := act.apply_selects h hs
    exact ih hnext hsnext

theorem selects_furnished : Selects furnished := by
  have hids : idsIn furnished.root = [.text "cupboard", .text "shelf", .text "left",
      .text "right", .text "column", .text "door"] := by cbv
  refine .inr ?_
  rw [hids]
  simp [furnished]

/-- The selected text leaves the row before the row is removed. -/
def rearranging : List Act := [
  .operation (.edit (.move (.text "right") (.text "column") (.int 0))) (fun _ h => by cases h),
  .operation (.edit (.remove (.text "shelf"))) (fun _ h => by cases h)]

theorem selects_after_rearranging :
    WellFormed furnished.root ∧ Selects furnished ∧
      WellFormed (furnished.after rearranging).root ∧ Selects (furnished.after rearranging) ∧
      Follows (furnished.after rearranging) ∧
      (furnished.after rearranging).selected.text? = some "right" := by
  have hsound : WellFormed furnished.root := wellFormed_cupboard.1
  obtain ⟨hafter, hselects, hfollows⟩ := selects_after hsound selects_furnished rearranging
  exact ⟨hsound, selects_furnished, hafter, hselects, hfollows, by decide +kernel⟩

end PageBuilder.Store
