import Mathlib.Data.List.Forall2
import PageBuilder.Proofs.Tree.Relist
import PageBuilder.Proofs.Tree.Walk

/-!
Trees that are walked alike: node by node, at the same addresses and below parents that correspond.

* `Visit.Alike`: two visits at one address, of nodes that are related, below related parents;
* `walk_alike`: a relation that passes to children, one by one, passes to the walks;
* `locate_alike`: and so nodes are found in the same places;
* `nodesOnly`: a tree without the children that are no nodes;
* `nodes_nodesOnly`: it has the nodes of the tree.
-/

namespace PageBuilder.Tree

/-! ## Walks side by side -/

/-- Two visits at one address, of related nodes, either both of a root or both below a parent, where
the parents are related as well. -/
structure Visit.Alike (R : Value → Value → Prop) (v w : Visit) : Prop where
  address : v.address = w.address
  parent : Option.Rel R v.parent w.parent
  node : R v.node w.node

/-- A relation that passes from values to the members of their child lists, one by one, and relates
nodes with nodes. -/
def PassesDown (R : Value → Value → Prop) : Prop :=
  ∀ n m, R n m → m.isObject = n.isObject ∧ List.Forall₂ R n.children m.children

section Alike

variable {R : Value → Value → Prop}

theorem Visit.Alike.mono {S : Value → Value → Prop} (hRS : ∀ n m, R n m → S n m) {v w : Visit}
    (h : v.Alike R w) : v.Alike S w where
  address := h.address
  parent := by
    have hparent := h.parent
    generalize v.parent = p, w.parent = q at hparent
    cases hparent with
    | some hrel => exact .some (hRS _ _ hrel)
    | none => exact .none
  node := hRS _ _ h.node

/-- What related nodes have in common is met in the same order by both walks. -/
theorem map_node_alike {α : Type} {f : Value → α} (hf : ∀ n m, R n m → f m = f n)
    {visits visits' : List Visit} (h : List.Forall₂ (Visit.Alike R) visits visits') :
    (visits'.map Visit.node).map f = (visits.map Visit.node).map f := by
  induction h with
  | nil => rfl
  | cons hvw _ ih =>
    rw [List.map_cons, List.map_cons, List.map_cons, List.map_cons, hf _ _ hvw.node, ih]

variable (hR : PassesDown R)

include hR

theorem below_alike {v w : Visit} (h : v.Alike R w) (index : Nat) {vs ws : List Value}
    (hchildren : List.Forall₂ R vs ws) :
    List.Forall₂ (Visit.Alike R) (v.below index vs) (w.below index ws) := by
  induction hchildren generalizing index with
  | nil => exact .nil
  | @cons c d _ _ hrel _ ih =>
    rw [Visit.below, Visit.below, (hR c d hrel).1]
    split
    · refine .cons ⟨?_, .some h.node, hrel⟩ (ih (index + 1))
      rw [Visit.child, Visit.child, h.address]
    · exact ih (index + 1)

/-- The invariant of two walks: the visits on the stacks are alike one by one. -/
theorem walkFrom_alike {stack stack' : List Visit}
    (h : List.Forall₂ (Visit.Alike R) stack stack') :
    List.Forall₂ (Visit.Alike R) (walkFrom stack) (walkFrom stack') := by
  induction stack using walkFrom.induct generalizing stack' with
  | case1 =>
    cases h
    rw [walkFrom]
    exact .nil
  | case2 v rest ih =>
    obtain ⟨w, rest', hvw, hrest, rfl⟩ := List.forall₂_cons_left_iff.mp h
    have hchildren := (hR _ _ hvw.node).2
    rw [walkFrom, walkFrom]
    exact .cons hvw (ih (List.rel_append (below_alike hR hvw 0 hchildren) hrest))

section Roots

variable {root root' : Value} (h : R root root')

include h

theorem walk_alike {visits : List Visit} (hw : walk root = .ok visits) :
    ∃ visits', walk root' = .ok visits' ∧ List.Forall₂ (Visit.Alike R) visits visits' := by
  unfold walk at hw
  split at hw
  · rename_i ho
    cases hw
    exact ⟨_, if_pos ((hR _ _ h).1.trans ho), walkFrom_alike hR (.cons ⟨rfl, .none, h⟩ .nil)⟩
  · cases hw

/-- What is found in one tree is found in the other at the same place, if identifiers are kept. -/
theorem locate_alike (hid : ∀ n m, R n m → m.field "id" = n.field "id") {id : Value} {v : Visit}
    (hv : locate root id = .ok (some v)) :
    ∃ w, locate root' id = .ok (some w) ∧ v.Alike R w := by
  obtain ⟨visits, hw, hfind⟩ := map_eq_ok_iff.mp hv
  obtain ⟨visits', hw', halike⟩ := walk_alike hR h hw
  have hfound : ∃ w, visits'.find? (fun u => u.id.same id) = some w ∧ v.Alike R w := by
    clear hw hw' hv
    induction halike with
    | nil => cases hfind
    | @cons u u' _ _ huu' _ ih =>
      have hsame : u'.id = u.id := hid _ _ huu'.node
      rw [List.find?_cons] at hfind ⊢
      rw [hsame]
      split at hfind
      · cases hfind
        exact ⟨u', rfl, huu'⟩
      · exact ih hfind
  obtain ⟨w, hwfind, hvw⟩ := hfound
  exact ⟨w, map_eq_ok_iff.mpr ⟨visits', hw', hwfind⟩, hvw⟩

end Roots

end Alike

/-! ## Trees of nodes only -/

/-- The tree without the children that are no objects, at every depth. -/
def nodesOnly (root : Value) : Value := relist (fun _ items => items.filter Value.isObject) root

@[simp] theorem isObject_relist (f : Value → List Value → List Value) (v : Value) :
    (relist f v).isObject = v.isObject := by
  cases h : v.childList? with
  | none => rw [relist_of_none h]
  | some items => rw [relist_of_isSome (by rw [h]; rfl), isObject_editChildren]

@[simp] theorem isObject_nodesOnly (v : Value) : (nodesOnly v).isObject = v.isObject :=
  isObject_relist ..

theorem nodesOnly_of_none {v : Value} (h : v.childList? = none) : nodesOnly v = v :=
  relist_of_none h

theorem nodesOnly_of_isSome {v : Value} (h : v.childList?.isSome) :
    nodesOnly v = editChildren (fun items => (items.map nodesOnly).filter Value.isObject) v :=
  relist_of_isSome h

/-- The children that are nodes stay, in order. -/
theorem children_nodesOnly (v : Value) :
    (nodesOnly v).children = (v.children.filter Value.isObject).map nodesOnly := by
  cases h : v.childList? with
  | none => rw [nodesOnly_of_none h, Value.children, h, Option.getD_none, List.filter_nil,
      List.map_nil]
  | some items =>
    have hsome : v.childList?.isSome := by rw [h]; rfl
    rw [nodesOnly_of_isSome hsome, children_editChildren (isObject_of_childList? hsome),
      List.filter_map]
    exact congrArg _ (List.filter_congr fun c _ => isObject_nodesOnly c)

theorem isSome_childList?_nodesOnly (v : Value) :
    (nodesOnly v).childList?.isSome = v.childList?.isSome := by
  cases h : v.childList? with
  | none => rw [nodesOnly_of_none h, h]
  | some items =>
    have hsome : v.childList?.isSome := by rw [h]; rfl
    rw [nodesOnly_of_isSome hsome, childList?_editChildren (isObject_of_childList? hsome)]
    rfl

/-- What a node has besides its children is left as it is. -/
theorem nodesOnly_eq (v : Value) : nodesOnly v = v ∨
    ∃ fields items, v = .object fields ∧
      nodesOnly v = .object (Fields.set fields "children" (.list items)) := by
  cases h : v.childList? with
  | none => exact .inl (nodesOnly_of_none h)
  | some items =>
    have hsome : v.childList?.isSome := by rw [h]; rfl
    obtain ⟨fields, rfl⟩ := (Value.isObject_iff v).mp (isObject_of_childList? hsome)
    exact .inr ⟨fields, _, rfl, nodesOnly_of_isSome hsome⟩

theorem field_nodesOnly {name : String} (hne : name ≠ "children") (v : Value) :
    (nodesOnly v).field name = v.field name := by
  rcases nodesOnly_eq v with heq | ⟨fields, items, rfl, heq⟩
  · rw [heq]
  · rw [heq]
    exact Fields.field_set_of_ne fields _ hne

theorem nodesOf_filter (vs : List Value) : nodesOf (vs.filter Value.isObject) = nodesOf vs := by
  induction vs with
  | nil => rfl
  | cons v rest ih =>
    cases ho : v.isObject with
    | true => rw [List.filter_cons_of_pos ho, nodesOf_cons ho, nodesOf_cons ho, ih]
    | false =>
      rw [List.filter_cons_of_neg (by rw [ho]; exact Bool.false_ne_true), nodesOf.eq_2, ho]
      exact ih

/-- A tree and the tree without what is no node have the same nodes, in the same order. -/
theorem nodes_nodesOnly (v : Value) : nodes (nodesOnly v) = (nodes v).map nodesOnly := by
  induction v using Value.children_induction with
  | step v ih =>
    have hall : ∀ vs : List Value, (∀ c ∈ vs, nodes (nodesOnly c) = (nodes c).map nodesOnly) →
        nodesOf (vs.map nodesOnly) = (nodesOf vs).map nodesOnly := by
      intro vs hvs
      induction vs with
      | nil => rw [List.map_nil, nodesOf_nil, List.map_nil]
      | cons c rest ihRest =>
        rw [List.forall_mem_cons] at hvs
        rw [List.map_cons, nodesOf, nodesOf, isObject_nodesOnly, ihRest hvs.2]
        split
        · rw [hvs.1, List.map_append]
        · rfl
    rw [nodes_eq, nodes_eq v, children_nodesOnly, List.map_cons,
      hall _ fun c hc => ih c (List.mem_filter.mp hc).1, nodesOf_filter]

end PageBuilder.Tree
