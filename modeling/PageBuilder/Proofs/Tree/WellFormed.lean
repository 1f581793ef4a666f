import Mathlib.Data.List.Nodup
import PageBuilder.Proofs.Tree.Walk

/-!
Well-formed trees: one page at the root, kinds that are known, identifiers that are texts and
pairwise distinct, child lists at containers and at nothing else.

* `WellFormed`: the invariant of every edit;
* `WellFormed.of_marks`: a tree is well-formed if its nodes are sound and their marks are those of
  a well-formed tree, in any order;
* `sound_editChildren`: a change of one child list keeps all nodes sound.
-/

namespace PageBuilder.Tree

/-- A node that is right by itself: it has a name, its kind is known, and it has a list of nodes
for children just if that kind is a container. -/
structure Sound (v : Value) : Prop where
  isObject : v.isObject
  named : ∃ id, v.field "id" = .text id ∧ id ≠ ""
  known : v.kind?.isSome
  leaf : v.isContainer = false → v.get? "children" = none
  container : v.isContainer = true → ∃ items, v.childList? = some items ∧ ∀ c ∈ items, c.isObject

structure WellFormed (root : Value) : Prop where
  page : root.kind? = some .page
  sound : ∀ v ∈ nodes root, Sound v
  inner : ∀ v ∈ nodesOf root.children, v.kind? ≠ some .page
  distinct : ((nodes root).map fun v => v.field "id").Nodup

/-! ## Sound nodes -/

theorem isContainer_eq {v : Value} {kind : ComponentKind} (h : v.kind? = some kind) :
    v.isContainer = kind.isContainer := by
  rw [Value.isContainer, h, Option.any_some]

theorem Sound.ofLeaf {v : Value} (ho : v.isObject)
    (hnamed : ∃ id, v.field "id" = .text id ∧ id ≠ "") (hknown : v.kind?.isSome)
    (hleaf : v.isContainer = false) (hgone : v.get? "children" = none) : Sound v where
  isObject := ho
  named := hnamed
  known := hknown
  leaf := fun _ => hgone
  container := by
    intro hc
    rw [hleaf] at hc
    cases hc

/-- A container with a name is sound as soon as it is given a list of nodes for children. -/
theorem Sound.ofContainer {v : Value} (ho : v.isObject)
    (hnamed : ∃ id, v.field "id" = .text id ∧ id ≠ "") (hc : v.isContainer = true)
    {f : List Value → List Value} (hf : ∀ c ∈ f v.children, c.isObject) :
    Sound (editChildren f v) where
  isObject := (isObject_editChildren f v).trans ho
  named := by
    rw [field_editChildren (by decide)]
    exact hnamed
  known := by
    rw [kind?_editChildren]
    exact Option.isSome_of_any hc
  leaf := by
    intro hl
    rw [isContainer_editChildren, hc] at hl
    cases hl
  container := fun _ => ⟨_, childList?_editChildren ho f, hf⟩

theorem Sound.isContainer_of_children {v : Value} (h : Sound v) (hne : v.children ≠ []) :
    v.isContainer = true := by
  cases hc : v.isContainer with
  | true => rfl
  | false => exact absurd (Value.children_eq_nil_of_get? (h.leaf hc)) hne

theorem Sound.isObject_child {v c : Value} (h : Sound v) (hc : c ∈ v.children) :
    c.isObject = true := by
  obtain ⟨items, hitems, hall⟩ := h.container (h.isContainer_of_children (List.ne_nil_of_mem hc))
  rw [Value.children, hitems, Option.getD_some] at hc
  exact hall c hc

theorem Sound.editChildren {v : Value} (h : Sound v) (hc : v.isContainer = true)
    {f : List Value → List Value} (hf : ∀ c ∈ f v.children, c.isObject) :
    Sound (Tree.editChildren f v) :=
  .ofContainer h.isObject h.named hc hf

/-- A change of one child list keeps all nodes sound if all that it puts there is. -/
theorem sound_editChildren {root n : Value} {a : List Nat} {f : List Value → List Value}
    (hroot : ∀ v ∈ nodes root, Sound v) (h : nodeAt? root a = some n) (hn : n.isObject)
    (hc : n.isContainer = true)
    (hf : ∀ c ∈ f n.children, c.isObject = true ∧ ∀ m ∈ nodes c, Sound m) :
    ∀ v ∈ nodes (editAt a (editChildren f) root), Sound v := by
  have hsound : Sound n := hroot n (mem_nodes_of_nodeAt? h hn)
  apply forall_nodes_editAt ?_ (fun v hv c hc => hv.isObject_child hc) h
    ((isObject_editChildren f n).trans hn) hroot
  · intro v hv
    rw [nodes_eq, children_editChildren hn] at hv
    rcases List.mem_cons.mp hv with rfl | hv
    · exact hsound.editChildren hc fun c hmem => (hf c hmem).1
    · obtain ⟨c, hmem, -, hm⟩ := mem_nodesOf.mp hv
      exact (hf c hmem).2 v hm
  · intro v g hv hne hg
    exact hv.editChildren (hv.isContainer_of_children hne) hg

theorem all_isHashable_ids {ns : List Value} (h : ∀ n ∈ ns, Sound n) :
    (ns.map fun n => n.field "id").all Value.isHashable = true := by
  rw [List.all_map, List.all_eq_true]
  intro n hn
  obtain ⟨id, hid, -⟩ := (h n hn).named
  rw [Function.comp_apply, hid]
  rfl

/-! ## Marks -/

/-- What tells a node apart, and whether it is a page. -/
def mark (v : Value) : Value × Bool := (v.field "id", v.kind? == some .page)

def marks (root : Value) : List (Value × Bool) := (nodes root).map mark

def marksOf (vs : List Value) : List (Value × Bool) := (nodesOf vs).map mark

@[simp] theorem mark_editChildren (f : List Value → List Value) (v : Value) :
    mark (editChildren f v) = mark v := by
  rw [mark, field_editChildren (by decide), kind?_editChildren, mark]

theorem marks_eq (root : Value) : marks root = mark root :: marksOf root.children := by
  rw [marks, nodes_eq, List.map_cons, marksOf]

@[simp] theorem marksOf_nil : marksOf [] = [] := by rw [marksOf, nodesOf_nil, List.map_nil]

theorem marksOf_singleton {v : Value} (h : v.isObject) : marksOf [v] = marks v := by
  rw [marksOf, nodesOf_singleton h, marks]

/-- The marks of a well-formed tree. -/
structure MarkedWell (first : Value × Bool) (rest : List (Value × Bool)) : Prop where
  page : first.2 = true
  inner : ∀ m ∈ rest, m.2 = false
  distinct : ((first :: rest).map Prod.fst).Nodup

theorem WellFormed.markedWell {root : Value} (h : WellFormed root) :
    MarkedWell (mark root) (marksOf root.children) where
  page := beq_iff_eq.mpr h.page
  inner := by
    intro m hm
    obtain ⟨v, hv, rfl⟩ := List.mem_map.mp hm
    exact beq_eq_false_iff_ne.mpr (h.inner v hv)
  distinct := by
    rw [← marks_eq, marks, List.map_map]
    exact h.distinct

/-- A tree of sound nodes is well-formed if its marks are, in any order. -/
theorem WellFormed.of_marks {root : Value} (rest : List (Value × Bool))
    (hsound : ∀ v ∈ nodes root, Sound v) (hwell : MarkedWell (mark root) rest)
    (hperm : (marksOf root.children).Perm rest) : WellFormed root where
  page := beq_iff_eq.mp hwell.page
  sound := hsound
  inner := by
    intro v hv
    exact beq_eq_false_iff_ne.mp (hwell.inner (mark v) (hperm.subset (List.mem_map_of_mem hv)))
  distinct := by
    have hp : (marks root).Perm (mark root :: rest) := by
      rw [marks_eq]
      exact hperm.cons _
    have hd := (hp.map Prod.fst).nodup_iff.mpr hwell.distinct
    rw [marks, List.map_map] at hd
    exact hd

end PageBuilder.Tree
