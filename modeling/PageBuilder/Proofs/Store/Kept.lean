import PageBuilder.Proofs.Store.Step
import PageBuilder.Proofs.Store.Workable

/-!
What every change of the tree keeps, when all that comes from outside is workable.

* `Lasting.editAt`, `TreeStep.lasting`: what lasts is kept by edits and by every change;
* `Kept`: a well-formed tree of workable values with properties at every node;
* `TreeStep.kept`: every change keeps such a tree.
-/

namespace PageBuilder.Tree

open Value (Workable)

/-! ## What lasts -/

section Lasting

variable {P : Value → Prop} (hP : Lasting P) {v n : Value}

include hP

theorem Lasting.nodeAt? (h : P v) {a : List Nat} (hn : nodeAt? v a = some n) : P n := by
  induction a generalizing v with
  | nil =>
    cases hn
    exact h
  | cons i rest ih =>
    obtain ⟨c, hc, hrest⟩ := Tree.nodeAt?_cons hn
    exact ih (hP.children h c (List.mem_of_getElem? hc)) hrest

theorem Lasting.editChildren (h : P v) {f : List Value → List Value}
    (hf : ∀ items : List Value, (∀ c ∈ items, P c) → ∀ c ∈ f items, P c) :
    P (editChildren f v) := by
  cases v with
  | object fields => exact hP.childList h (hf _ (hP.children h))
  | _ => exact h

theorem Lasting.editAt (h : P v) (a : List Nat) {f : Value → Value} (hf : ∀ w, P w → P (f w)) :
    P (editAt a f v) := by
  induction a generalizing v with
  | nil => exact hf v h
  | cons i rest ih =>
    refine hP.editChildren h fun items hitems c hc => ?_
    rw [List.mem_iff_getElem?] at hc
    obtain ⟨j, hj⟩ := hc
    rw [List.getElem?_modify] at hj
    obtain ⟨d, hd, rfl⟩ := Option.map_eq_some_iff.mp hj
    have hlasting := hitems d (List.mem_of_getElem? hd)
    split
    · exact ih hlasting
    · exact hlasting

/-- What lasts, and is kept when fields are put into a node, is kept by every change. -/
theorem TreeStep.lasting (hput : ∀ {v news}, P v → P (.object news) → P (putFields news v))
    (hinitial : P Store.initialRoot) {root root' : Value} (h : TreeStep P root root')
    (hp : P root) : P root' := by
  have hdetach : ∀ v : Visit, P (detach root v) := fun v =>
    hP.editAt hp _ fun w hw => hP.editChildren hw fun items hitems c hc =>
      hitems c (List.mem_of_mem_eraseIdx hc)
  cases h with
  | same => exact hp
  | insert given hi =>
    obtain ⟨_, parent, item, a, -, -, -, -, hsettle, rfl⟩ := insert_eq hi
    refine hP.editAt hp _ fun w hw => hP.editChildren hw fun items hitems c hc => ?_
    rcases List.mem_append.mp hc with hc | hc
    · exact hitems c hc
    · rw [List.mem_singleton.mp hc]
      exact Fresh.settle_lasting hP _ given _ item a hsettle
  | update given hu =>
    obtain ⟨news, v, rfl, -, -, rfl⟩ := update_eq hu
    exact hP.editAt hp _ fun w hw => hput hw given
  | remove hr =>
    obtain ⟨v, -, -, -, rfl⟩ := remove_eq hr
    exact hdetach v
  | reorder hr =>
    obtain ⟨d, v, place, -, -, -, rfl⟩ := reorder_eq hr
    exact hP.editAt hp _ fun w hw => hP.editChildren hw fun items hitems c hc =>
      hitems c ((swap_perm v.index place items).subset hc)
  | move hm =>
    obtain ⟨v, target, place, hl, -, -, -, rfl⟩ := move_eq hm
    have hnode : P v.node := hP.nodeAt? hp (locateInner_eq hl).1.node
    refine hP.editAt (hdetach v) _ fun w hw => hP.editChildren hw fun items hitems c hc => ?_
    rcases List.mem_append.mp ((insertAt_perm place v.node items).subset hc) with hc | hc
    · exact hitems c hc
    · rw [List.mem_singleton.mp hc]
      exact hnode
  | load given _ => exact Document.lasting_shaped hP _ given
  | reset => exact hinitial

end Lasting

theorem workable_of_find {root id node : Value} (hw : root.Workable)
    (h : find root id = .ok (some node)) : node.Workable := by
  obtain ⟨found, hfound, hmap⟩ := map_eq_ok_iff.mp h
  obtain ⟨visit, rfl, rfl⟩ := Option.map_eq_some_iff.mp hmap
  exact Value.lasting_workable.nodeAt? hw (locate_eq hfound).1.node

theorem workable_initialRoot : Workable Store.initialRoot := by
  refine Value.Storable.workable ?_
  simp [Store.initialRoot, Atom.offence?]

theorem TreeStep.workable {root root' : Value} (h : TreeStep Workable root root')
    (hw : Workable root) : Workable root' :=
  TreeStep.lasting Value.lasting_workable (fun hv hnews => hv.putFields hnews)
    workable_initialRoot h hw

/-! ## Properties -/

/-- A node that has properties. -/
def HasProps (v : Value) : Prop := (v.get? "props").isSome = true

theorem hasProps_of_isObject {v : Value} (h : (v.field "props").isObject) : HasProps v := by
  unfold HasProps
  rw [Value.field_eq] at h
  cases hget : v.get? "props" with
  | none =>
    rw [hget] at h
    cases h
  | some p => rfl

theorem hasProps_editChildren (f : List Value → List Value) (v : Value) :
    HasProps (editChildren f v) ↔ HasProps v := by
  cases v with
  | object fields =>
    have hget := Fields.get?_set_of_ne fields (.list (f (Value.object fields).children))
      (show "props" ≠ "children" by decide)
    show (Fields.get? (Fields.set fields "children" _) "props").isSome = true ↔ _
    rw [hget]
    rfl
  | _ => rfl

theorem HasProps.putFields {v : Value} (h : HasProps v) (news : Fields) :
    HasProps (putFields news v) := by
  cases v with
  | object fields =>
    exact Fields.get?_merge (P := fun p => p.isSome = true) h fun w _ => rfl
  | _ => exact h

theorem hasProps_initialRoot : ∀ n ∈ nodes Store.initialRoot, HasProps n := by
  have hchildren : Store.initialRoot.children = [] := rfl
  rw [nodes_eq, hchildren, nodesOf_nil, List.forall_mem_singleton]
  rfl

section HasProps

variable {root root' : Value} (hp : ∀ n ∈ nodes root, HasProps n)

include hp

theorem hasProps_insert {source : IdSource} {drawn drawn' : Nat} {parentId node : Value}
    {id : String} (hi : insert source drawn root parentId node = (.ok (some (root', id)), drawn')) :
    ∀ n ∈ nodes root', HasProps n := by
  obtain ⟨_, parent, item, a, -, hplaced, -, -, hsettle, rfl⟩ := insert_eq hi
  have hnamed := Fresh.settle_named _ _ item a hsettle
  have hitem := nodesOf_singleton (hnamed.isObject_of_mem item (List.mem_singleton_self item))
  refine forall_nodes_editChildren hasProps_editChildren hplaced.node hplaced.isObject hp ?_
  intro c hc
  rcases List.mem_append.mp hc with hc | hc
  · exact .inl hc
  · rw [List.mem_singleton.mp hc, ← hitem]
    exact .inr fun n hn => hasProps_of_isObject (hnamed.forall_nodes n hn).props

theorem hasProps_update {id fields : Value} (hw : WellFormed root)
    (hu : update root id fields = .ok (some root')) : ∀ n ∈ nodes root', HasProps n := by
  obtain ⟨news, v, rfl, hl, ha, rfl⟩ := update_eq hu
  have hplaced := (locate_eq hl).1
  have hsub := nodes_subset_of_nodeAt? hplaced.node hplaced.isObject
  have hself := hsub (self_mem_nodes v.node)
  obtain ⟨hsound, -, hchildren⟩ := (hw.sound _ hself).putFields ha
  refine forall_nodes_editAt_of_iff hasProps_editChildren hplaced.node hplaced.isObject
    hsound.isObject hp ?_
  intro n hn
  rw [nodes_eq, hchildren] at hn
  rcases List.mem_cons.mp hn with rfl | hn
  · exact (hp _ hself).putFields news
  · refine hp n (hsub ?_)
    rw [nodes_eq]
    exact List.mem_cons_of_mem _ hn

theorem hasProps_detach {v : Visit} {p : Value} (habove : nodeAt? root v.above = some p)
    (hchild : p.children[v.index]? = some v.node) : ∀ n ∈ nodes (detach root v), HasProps n := by
  have ho := isObject_of_mem_children (List.mem_of_getElem? hchild)
  exact forall_nodes_editChildren hasProps_editChildren habove ho hp
    fun c hc => .inl (List.mem_of_mem_eraseIdx hc)

theorem TreeStep.hasProps {P : Value → Prop} (h : TreeStep P root root') (hw : WellFormed root) :
    ∀ n ∈ nodes root', HasProps n := by
  cases h with
  | same => exact hp
  | insert _ hi => exact hasProps_insert hp hi
  | update _ hu => exact hasProps_update hp hw hu
  | remove hr =>
    obtain ⟨v, hl, -, -, rfl⟩ := remove_eq hr
    obtain ⟨-, -, p, -, -, habove, hchild⟩ := locateInner_eq hl
    exact hasProps_detach hp habove hchild
  | reorder hr =>
    obtain ⟨d, v, place, -, hl, -, rfl⟩ := reorder_eq hr
    obtain ⟨-, -, p, -, -, habove, hchild⟩ := locateInner_eq hl
    have ho := isObject_of_mem_children (List.mem_of_getElem? hchild)
    exact forall_nodes_editChildren hasProps_editChildren habove ho hp
      fun c hc => .inl ((swap_perm v.index place p.children).subset hc)
  | move hm =>
    obtain ⟨v, target, place, hl, ht, -, -, rfl⟩ := move_eq hm
    obtain ⟨hplaced, -, p, -, -, habove, hchild⟩ := locateInner_eq hl
    have htarget := (locate_eq ht).1
    refine forall_nodes_editChildren hasProps_editChildren htarget.node htarget.isObject
      (hasProps_detach hp habove hchild) ?_
    intro c hc
    rcases List.mem_append.mp ((insertAt_perm place v.node _).subset hc) with hc | hc
    · exact .inl hc
    · rw [List.mem_singleton.mp hc]
      exact .inr fun n hn => hp n (nodes_subset_of_nodeAt? hplaced.node hplaced.isObject hn)
  | load _ hpassed =>
    exact fun n hn => hasProps_of_isObject ((Document.wellFormed_shaped hpassed).2 n hn)
  | reset => exact hasProps_initialRoot

end HasProps

/-! ## All together -/

/-- A well-formed tree of workable values with properties at every node. -/
structure Kept (root : Value) : Prop where
  wellFormed : WellFormed root
  workable : Workable root
  props : ∀ n ∈ nodes root, HasProps n

theorem Kept.plain {root : Value} (h : Kept root) : root.Plain := h.workable.plain

theorem Kept.initialRoot : Kept Store.initialRoot :=
  ⟨.initialRoot, workable_initialRoot, hasProps_initialRoot⟩

/-- Every change keeps the tree well-formed and workable, and the properties at every node. -/
theorem TreeStep.kept {root root' : Value} (h : TreeStep Workable root root') (hk : Kept root) :
    Kept root' :=
  ⟨h.wellFormed hk.wellFormed, h.workable hk.workable, h.hasProps hk.props hk.wellFormed⟩

end PageBuilder.Tree
