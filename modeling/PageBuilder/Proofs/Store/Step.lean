import PageBuilder.Document.Transfer
import PageBuilder.Proofs.Document.Shape

/-!
The ways in which the tree of a store is changed.

* `TreeStep`: one change of the tree, by an edit, by a document or by a reset;
* `TreeStep.wellFormed`: every change keeps a tree well-formed;
* `WellFormed.initialRoot`: the tree of a new session is well-formed.
-/

namespace PageBuilder.Tree

/-- A change of the tree, where `P` holds of the values that come from outside. -/
inductive TreeStep (P : Value → Prop) (root : Value) : Value → Prop where
  | same : TreeStep P root root
  | insert {source : IdSource} {drawn drawn' : Nat} {parentId node root' : Value} {id : String}
      (given : P node)
      (inserted : insert source drawn root parentId node = (.ok (some (root', id)), drawn')) :
      TreeStep P root root'
  | update {id fields root' : Value} (given : P fields)
      (updated : update root id fields = .ok (some root')) : TreeStep P root root'
  | remove {id root' : Value} {removed : List Value}
      (cut : remove root id = .ok (some (root', removed))) : TreeStep P root root'
  | reorder {id direction root' : Value}
      (reordered : reorder root id direction = .ok (some root')) : TreeStep P root root'
  | move {id targetId index root' : Value}
      (moved : move root id targetId index = .ok (some root')) : TreeStep P root root'
  | load {loaded : Value} (given : P loaded) (passed : (Check.tree loaded).errors = []) :
      TreeStep P root (Document.shaped loaded)
  | reset : TreeStep P root Store.initialRoot

theorem WellFormed.initialRoot : WellFormed Store.initialRoot := by
  have hlist : Store.initialRoot.childList? = some [] := rfl
  have hkind : Store.initialRoot.kind? = some .page := rfl
  have hid : Store.initialRoot.field "id" = .text "root" := rfl
  have hsound : Sound Store.initialRoot := by
    refine ⟨rfl, ⟨"root", hid, by decide⟩, rfl, fun hl => ?_, fun _ => ⟨[], hlist, by simp⟩⟩
    rw [isContainer_eq hkind] at hl
    cases hl
  have hchildren : Store.initialRoot.children = [] := rfl
  have hbelow : Named Inner ["root"] Store.initialRoot.children ["root"] := by
    rw [hchildren]
    exact .nil _
  exact .of_named hkind hsound hid hbelow

theorem TreeStep.wellFormed {P : Value → Prop} {root root' : Value} (h : TreeStep P root root')
    (hw : WellFormed root) : WellFormed root' := by
  cases h with
  | same => exact hw
  | insert _ hi => exact hw.insert hi
  | update _ hu => exact hw.update hu
  | remove hr => exact hw.remove hr
  | reorder hr => exact hw.reorder hr
  | move hm => exact hw.move hm
  | load _ hpassed => exact (Document.wellFormed_shaped hpassed).1
  | reset => exact .initialRoot

end PageBuilder.Tree

namespace PageBuilder.Store

open PageBuilder.Tree (TreeStep)

variable {P : Value → Prop}

/-! ## Calls of the store -/

theorem commit_step {s : Store} {edited : Except Fault (Option Value)}
    (h : ∀ root', edited = .ok (some root') → TreeStep P s.root root') :
    TreeStep P s.root (s.commit edited).2.root := by
  unfold commit
  split
  · exact .same
  · exact .same
  · exact h _ rfl

theorem insert_step (s : Store) (source : IdSource) (drawn : Nat) {parentId node : Value}
    (h : P node) : TreeStep P s.root (s.insert source drawn parentId node).store.root := by
  unfold insert inserted
  split
  · exact .same
  · exact .same
  · rename_i hi
    exact .insert h hi

theorem selecting_root (i : Insertion) : i.selecting.store.root = i.store.root := by
  unfold Insertion.selecting
  split <;> rfl

theorem add_step (s : Store) (source : IdSource) (drawn : Nat) (parentId kind : Value)
    (h : ∀ node drawn', Fresh.componentOf source drawn kind = (.ok node, drawn') → P node) :
    TreeStep P s.root (s.add source drawn parentId kind).store.root := by
  unfold add
  split
  · exact .same
  · rename_i hnode
    rw [selecting_root]
    exact s.insert_step source _ (h _ _ hnode)

theorem update_step (s : Store) (id : Value) {fields : Value} (h : P fields) :
    TreeStep P s.root (s.update id fields).2.root :=
  commit_step fun _ hu => .update h hu

theorem reorder_step (s : Store) (id direction : Value) :
    TreeStep P s.root (s.reorder id direction).2.root :=
  commit_step fun _ hr => .reorder hr

theorem move_step (s : Store) (id targetId index : Value) :
    TreeStep P s.root (s.move id targetId index).2.root :=
  commit_step fun _ hm => .move hm

theorem deselect_root (s : Store) (removed : List Value) :
    (s.deselect removed).2.root = s.root := by
  unfold deselect
  split
  · rfl
  · split <;> rfl

theorem remove_step (s : Store) (id : Value) : TreeStep P s.root (s.remove id).2.root := by
  unfold remove
  split
  · exact .same
  · exact .same
  · rename_i hr
    rw [deselect_root]
    exact .remove hr

theorem setContextValue_root (s : Store) (key v : Value) :
    (s.setContextValue key v).2.root = s.root := by
  unfold setContextValue
  split
  · split <;> rfl
  · rfl

theorem accept_step (s : Store) {source : Value}
    (h : ∀ document root, Document.ofSource source = .ok document →
      document.get? "root" = some root → root.offence? = none → P root) :
    TreeStep P s.root (Document.accept s source).2.root := by
  unfold Document.accept
  split
  · exact .same
  · rename_i document hdocument
    split
    · exact .same
    · rename_i fields hfields
      split
      · exact .same
      · rename_i root hroot
        unfold Document.load
        simp only
        split
        · rename_i hpassed
          have herrors := List.isEmpty_iff.mp hpassed
          refine .load (h document root hdocument ?_ ?_) herrors
          · rw [Value.get?, hfields, Option.bind_some, hroot]
          · exact ((Check.tree_errors_iff root).mp herrors).1
        · exact .same

/-! ## Data -/

section Context

variable (s : Store)

theorem commit_context (edited : Except Fault (Option Value)) :
    (s.commit edited).2.context = s.context := by
  unfold commit
  split <;> rfl

theorem insert_context (source : IdSource) (drawn : Nat) (parentId node : Value) :
    (s.insert source drawn parentId node).store.context = s.context := by
  unfold insert inserted
  split <;> rfl

theorem add_context (source : IdSource) (drawn : Nat) (parentId kind : Value) :
    (s.add source drawn parentId kind).store.context = s.context := by
  unfold add
  split
  · rfl
  · unfold Insertion.selecting
    split <;> exact insert_context ..

theorem remove_context (id : Value) : (s.remove id).2.context = s.context := by
  unfold remove
  split
  · rfl
  · rfl
  · unfold deselect
    split
    · rfl
    · split <;> rfl

/-- A document is loaded as a new tree, or nothing is changed. -/
theorem accept_cases (source : Value) : (Document.accept s source).2 = s ∨
    ∃ root, (Document.accept s source).2 = s.replaceTree root := by
  unfold Document.accept
  split
  · exact .inl rfl
  · split
    · exact .inl rfl
    · split
      · exact .inl rfl
      · unfold Document.load
        simp only
        split
        · exact .inr ⟨_, rfl⟩
        · exact .inl rfl

theorem accept_context (source : Value) : (Document.accept s source).2.context = s.context := by
  rcases s.accept_cases source with heq | ⟨root, heq⟩
  · rw [heq]
  · rw [heq]
    rfl

/-- A key that can not be set leaves the store alone. -/
theorem eq_of_setContextValue_error {s t : Store} {key v : Value} {f : Fault}
    (h : s.setContextValue key v = (.error f, t)) : t = s := by
  unfold setContextValue at h
  split at h
  · split at h
    · cases h
      rfl
    · cases h
  · cases h
    rfl

end Context

/-! ## Refusals -/

section Refusals

variable {s : Store}

theorem eq_of_commit_refused {edited : Except Fault (Option Value)}
    (h : (s.commit edited).1 = .ok false) : (s.commit edited).2 = s := by
  unfold commit at h ⊢
  split at h
  · cases h
  · rfl
  · cases h

/-- What was found to be removed is removed. -/
theorem deselect_ne_refused (removed : List Value) : (s.deselect removed).1 ≠ .ok false := by
  unfold deselect
  split
  · exact fun h => by cases h
  · split <;> exact fun h => by cases h

theorem eq_of_remove_refused {id : Value} (h : (s.remove id).1 = .ok false) :
    (s.remove id).2 = s := by
  unfold remove at h ⊢
  split at h
  · cases h
  · rfl
  · exact absurd h (deselect_ne_refused _)

theorem eq_of_insert_refused {source : IdSource} {drawn : Nat} {parentId node : Value}
    (h : (s.insert source drawn parentId node).result = .ok none) :
    (s.insert source drawn parentId node).store = s := by
  unfold insert inserted at h ⊢
  split at h
  · cases h
  · rfl
  · cases h

theorem selecting_refused {i : Insertion} (h : i.selecting.result = .ok none) :
    i.result = .ok none ∧ i.selecting = i := by
  unfold Insertion.selecting at h ⊢
  split at h
  · rename_i hid
    rw [hid] at h
    cases h
  · exact ⟨h, rfl⟩

theorem eq_of_add_refused {source : IdSource} {drawn : Nat} {parentId kind : Value}
    (h : (s.add source drawn parentId kind).result = .ok none) :
    (s.add source drawn parentId kind).store = s := by
  unfold add at h ⊢
  split at h
  · rfl
  · obtain ⟨hnone, hsame⟩ := selecting_refused h
    simp only [hsame]
    exact eq_of_insert_refused hnone

theorem eq_of_accept_refused {source : Value} (h : (Document.accept s source).1.ok = false) :
    (Document.accept s source).2 = s := by
  unfold Document.accept at h ⊢
  split at h
  · rfl
  · split at h
    · rfl
    · split at h
      · rfl
      · unfold Document.load at h ⊢
        simp only at h ⊢
        split at h
        · cases h
        · rename_i herrors
          rw [if_neg herrors]

end Refusals

/-! ## Selection -/

/-- Nothing is selected, or an identifier that is a text. -/
def SelectsText (s : Store) : Prop := s.selected.isNull = true ∨ s.selected.isText = true

section Selection

variable {s : Store} (h : s.SelectsText)

include h

theorem commit_selectsText (edited : Except Fault (Option Value)) :
    (s.commit edited).2.SelectsText := by
  unfold commit
  split <;> exact h

theorem insert_selectsText (source : IdSource) (drawn : Nat) (parentId node : Value) :
    (s.insert source drawn parentId node).store.SelectsText := by
  unfold insert inserted
  split <;> exact h

theorem add_selectsText (source : IdSource) (drawn : Nat) (parentId kind : Value) :
    (s.add source drawn parentId kind).store.SelectsText := by
  unfold add
  split
  · exact h
  · unfold Insertion.selecting
    split
    · exact .inr rfl
    · exact insert_selectsText h ..

theorem remove_selectsText (id : Value) : (s.remove id).2.SelectsText := by
  unfold remove
  split
  · exact h
  · exact h
  · unfold deselect
    split
    · exact h
    · split
      · exact .inl rfl
      · exact h

theorem setContextValue_selectsText (key v : Value) :
    (s.setContextValue key v).2.SelectsText := by
  unfold setContextValue
  split
  · split <;> exact h
  · exact h

theorem accept_selectsText (source : Value) : (Document.accept s source).2.SelectsText := by
  rcases s.accept_cases source with heq | ⟨root, heq⟩
  · rw [heq]
    exact h
  · rw [heq]
    exact .inl rfl

end Selection

end PageBuilder.Store
