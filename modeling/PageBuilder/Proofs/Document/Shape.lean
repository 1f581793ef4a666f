import PageBuilder.Document.Shape
import PageBuilder.Proofs.Document.Check
import PageBuilder.Proofs.Tree.Settle

/-!
The shape in which a checked tree is stored.

* `wellFormed_shaped`: what passes the check is well-formed once it is in shape, with properties at
  every node;
* `lasting_shaped`: what is kept by what a node is given is kept by the shape;
* `shaped_eq_self`: a tree with properties and child lists is in shape already.
-/

namespace PageBuilder.Document

open PageBuilder.Tree (nodes Lasting Sound Named Stored WellFormed)
open Check (Passable PassableInner)

/-! ## One node -/

/-- The fields of a node that is put in shape, with its new children. -/
theorem shaped_of_container {fields : Fields} (hc : (Value.object fields).isContainer = true)
    (hlist : (Fields.field fields "children").isNull = true ∨
      (Value.object fields).childList?.isSome = true) :
    shaped (.object fields) = Tree.editChildren (fun _ => allShaped (Value.object fields).children)
      (.object (Fresh.withProps fields)) := by
  have hkind : (Value.object (Fresh.withProps fields)).isContainer = true := by
    rwa [Fresh.isContainer_withProps]
  have hfield : Fields.field (Fresh.withProps fields) "children" = Fields.field fields "children" :=
    Fresh.field_withProps fields (by decide)
  unfold shaped filled
  simp only [Value.fields?, hc, hkind, hfield, Bool.true_and]
  cases hnull : (Fields.field fields "children").isNull with
  | true =>
    have hnone : (Value.object fields).childList? = none := Value.childList?_of_null hnull
    simp [hnone, Value.children, allShaped, Tree.editChildren]
  | false =>
    have hsome := hlist.resolve_left (by simp [hnull])
    simp [hsome, Tree.editChildren]

theorem shaped_of_leaf {fields : Fields} (hc : (Value.object fields).isContainer = false) :
    shaped (.object fields) = .object (Fresh.withProps fields) := by
  have hkind : (Value.object (Fresh.withProps fields)).isContainer = false := by
    rwa [Fresh.isContainer_withProps]
  unfold shaped filled
  simp [Value.fields?, hc, hkind]

/-! ## Trees -/

/-- What is passable is put in shape node by node, and names stay. -/
theorem stored_shaped {v : Value} (ho : v.isObject) (h : Passable v)
    (hchildren : ∀ c ∈ allShaped v.children, c.isObject) :
    Sound (shaped v) ∧ (shaped v).kind? = v.kind? ∧ (shaped v).field "id" = v.field "id" ∧
      ((shaped v).field "props").isObject ∧ (shaped v).children = allShaped v.children := by
  obtain ⟨fields, rfl⟩ := (Value.isObject_iff v).mp ho
  have hkind := Fresh.kind?_withProps fields
  have hid : (Value.object (Fresh.withProps fields)).field "id" = Fields.field fields "id" :=
    Fresh.field_withProps fields (by decide)
  have hnamed : ∃ id, (Value.object (Fresh.withProps fields)).field "id" = .text id ∧ id ≠ "" := by
    rw [hid]
    exact h.named
  have hprops := Fresh.isObject_props fields
  cases hc : (Value.object fields).isContainer with
  | false =>
    rw [shaped_of_leaf hc]
    have hgone : Fields.get? (Fresh.withProps fields) "children" = none :=
      (Fresh.get?_withProps fields (by decide)).trans (h.leaf hc)
    refine ⟨.ofLeaf rfl hnamed ?_ ?_ hgone, hkind, hid, hprops, ?_⟩
    · rw [hkind]
      exact h.known
    · rw [Fresh.isContainer_withProps, hc]
    · rw [Value.children_eq_nil_of_get? (h.leaf hc),
        Value.children_eq_nil_of_get? (v := .object _) hgone, allShaped]
  | true =>
    rw [shaped_of_container hc (h.container hc)]
    refine ⟨.ofContainer rfl hnamed ?_ hchildren, ?_, ?_, ?_, Tree.children_editChildren rfl _⟩
    · rw [Fresh.isContainer_withProps, hc]
    · rw [Tree.kind?_editChildren, hkind]
    · rw [Tree.field_editChildren (by decide), hid]
      rfl
    · rw [Tree.field_editChildren (by decide)]
      exact hprops

theorem named_allShaped {used after : List String} {vs : List Value}
    (h : Named PassableInner used vs after) : Named Stored used (allShaped vs) after := by
  induction h with
  | nil used =>
    rw [allShaped]
    exact .nil used
  | cons ho hq hid hnew hbelow hbeside ihBelow ihBeside =>
    rw [allShaped]
    obtain ⟨hsound, hkind, hid', hprops, hchildren⟩ :=
      stored_shaped ho hq.passable ihBelow.isObject_of_mem
    refine .cons hsound.isObject ⟨⟨hsound, ?_⟩, hprops⟩ (hid'.trans hid) hnew ?_ ihBeside
    · rw [hkind]
      exact hq.notPage
    · rw [hchildren]
      exact ihBelow

/-- A tree without errors is well-formed once it is in shape. -/
theorem wellFormed_shaped {root : Value} (h : (Check.tree root).errors = []) :
    WellFormed (shaped root) ∧ ∀ n ∈ nodes (shaped root), (n.field "props").isObject := by
  obtain ⟨-, after, ho, hp, hpage, id, hid, -, hbelow⟩ := (Check.tree_errors_iff root).mp h
  have hnamed := named_allShaped hbelow
  obtain ⟨hsound, hkind, hid', hprops, hchildren⟩ := stored_shaped ho hp hnamed.isObject_of_mem
  rw [← hchildren] at hnamed
  refine ⟨.of_named (hkind.trans (hpage.mpr rfl)) hsound (hid'.trans hid)
    (hnamed.imp fun v hv => hv.inner), ?_⟩
  intro n hn
  rw [Tree.nodes_eq] at hn
  rcases List.mem_cons.mp hn with rfl | hn
  · exact hprops
  · exact (hnamed.forall_nodes n hn).props

/-! ## What lasts -/

section Lasting

variable {P : Value → Prop}

theorem lasting_filled (hP : Lasting P) {fields : Fields} (h : P (.object fields)) :
    P (.object (filled fields)) := by
  have hprops := Fresh.lasting_withProps hP h
  unfold filled
  simp only
  split
  · exact hP.childList hprops (List.forall_mem_nil _)
  · exact hprops

theorem lasting_allShaped {vs : List Value} (h : ∀ v ∈ vs, P (shaped v)) :
    ∀ v ∈ allShaped vs, P v := by
  induction vs with
  | nil =>
    rw [allShaped]
    exact fun v hv => by cases hv
  | cons v rest ih =>
    rw [allShaped, List.forall_mem_cons]
    exact ⟨h v (List.mem_cons_self ..), ih fun w hw => h w (List.mem_cons_of_mem _ hw)⟩

theorem lasting_shaped (hP : Lasting P) (v : Value) (hv : P v) : P (shaped v) := by
  induction v using Value.children_induction with
  | step v ih =>
    unfold shaped
    split
    · exact hv
    · rename_i fields hfields
      obtain rfl := Value.fields?_eq_some hfields
      have hchildren := lasting_allShaped fun c hc => ih c hc (hP.children hv c hc)
      simp only
      split
      · exact hP.childList (lasting_filled hP hv) hchildren
      · exact lasting_filled hP hv

end Lasting

/-! ## Trees that are in shape -/

/-- A node that has its properties and, if it is a container, a child list. -/
structure Complete (v : Value) : Prop where
  props : (v.field "props").isObject
  listed : v.isContainer = true → v.childList?.isSome

theorem shaped_of_not_isObject {v : Value} (h : v.isObject = false) : shaped v = v := by
  unfold shaped
  cases v with
  | object fields => cases h
  | _ => rfl

theorem allShaped_eq_self {vs : List Value} (h : ∀ v ∈ vs, shaped v = v) : allShaped vs = vs := by
  induction vs with
  | nil => rw [allShaped]
  | cons v rest ih =>
    rw [allShaped, h v (List.mem_cons_self ..), ih fun w hw => h w (List.mem_cons_of_mem _ hw)]

/-- A tree whose nodes are complete is in shape. -/
theorem shaped_eq_self (root : Value) (h : ∀ n ∈ nodes root, Complete n) : shaped root = root := by
  induction root using Value.children_induction with
  | step v ih =>
    cases ho : v.isObject with
    | false => exact shaped_of_not_isObject ho
    | true =>
      obtain ⟨fields, rfl⟩ := (Value.isObject_iff v).mp ho
      have hself := h _ (Tree.self_mem_nodes _)
      have hprops : Fresh.withProps fields = fields := if_pos hself.props
      have hchildren :
          allShaped (Value.object fields).children = (Value.object fields).children := by
        refine allShaped_eq_self fun c hc => ?_
        cases hco : c.isObject with
        | false => exact shaped_of_not_isObject hco
        | true => exact ih c hc fun n hn => h n (Tree.mem_nodes_of_child hc hco hn)
      cases hc : (Value.object fields).isContainer with
      | false => rw [shaped_of_leaf hc, hprops]
      | true =>
        obtain ⟨items, hitems⟩ := Option.isSome_iff_exists.mp (hself.listed hc)
        rw [shaped_of_container hc (.inr (hself.listed hc)), hprops, hchildren, Value.children,
          hitems, Option.getD_some]
        rw [Value.childList?_eq_some_iff] at hitems
        exact congrArg Value.object (Fields.set_eq_self hitems)

end PageBuilder.Document
