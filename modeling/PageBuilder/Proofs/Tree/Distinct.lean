import Mathlib.Data.List.Pairwise
import Mathlib.Data.List.Perm.Basic
import PageBuilder.Proofs.Tree.Edits

/-!
What the distinct identifiers of a well-formed tree tell nodes apart by.

* `WellFormed.eq_of_id_eq`: an identifier names one node;
* `WellFormed.locate_eq_some`, `WellFormed.locateInner_eq_some`: which is the one that is found;
* `flatMap_children_perm`: the children of all nodes are all nodes but the root;
* `WellFormed.parent_unique`, `WellFormed.nodup_children`: so a node is the child of one node, and
  once;
* `apart_of_distinct`: what is below one child is told apart from all that is not.
-/

namespace PageBuilder.Tree

variable {root : Value}

/-! ## One node for an identifier -/

section Lookups

variable (h : WellFormed root) {n : Value} {x : String} (hn : n ∈ nodes root)
  (hid : n.field "id" = .text x)

include h

theorem WellFormed.isObject : root.isObject = true :=
  (h.sound root (self_mem_nodes root)).isObject

theorem WellFormed.rootId_eq : rootId root = .ok (root.field "id") := if_pos h.isObject

theorem WellFormed.exists_locate (id : Value) : ∃ found, locate root id = .ok found := by
  rw [locate, walk, if_pos h.isObject]
  exact ⟨_, rfl⟩

theorem WellFormed.exists_locateInner (id : Value) : ∃ found, locateInner root id = .ok found := by
  obtain ⟨found, hfound⟩ := h.exists_locate id
  rw [locateInner, h.rootId_eq, hfound]
  simp only [bind, Except.bind, pure, Except.pure]
  split
  · exact ⟨_, rfl⟩
  · exact ⟨_, rfl⟩

/-- The root is not found where a node with a parent is looked for. -/
theorem WellFormed.rootId_ne_of_locateInner {v : Visit}
    (hl : locateInner root (.text x) = .ok (some v)) : root.field "id" ≠ .text x := by
  intro hroot
  rw [locateInner, h.rootId_eq, hroot] at hl
  simp [bind, Except.bind, pure, Except.pure] at hl

include hn

theorem WellFormed.eq_of_id_eq {m : Value} (hm : m ∈ nodes root)
    (heq : m.field "id" = n.field "id") : m = n :=
  List.inj_on_of_nodup_map h.distinct hm hn heq

include hid

theorem WellFormed.locate_eq_some :
    ∃ v, locate root (.text x) = .ok (some v) ∧ v.node = n := by
  have hwalk := walk_of_isObject h.isObject
  have hnodes := map_node_walk hwalk
  cases hfind : (walkFrom [.start root]).find? fun v => v.id.same (.text x) with
  | none =>
    rw [← hnodes] at hn
    obtain ⟨w, hw, rfl⟩ := List.mem_map.mp hn
    have hno := List.find?_eq_none.mp hfind w hw
    rw [Value.same_text_iff] at hno
    exact absurd hid hno
  | some v =>
    have hsame := List.find?_some hfind
    rw [Value.same_text_iff] at hsame
    have hv : v.node ∈ nodes root := by
      rw [← hnodes]
      exact List.mem_map_of_mem (List.mem_of_find?_eq_some hfind)
    refine ⟨v, ?_, h.eq_of_id_eq hn hv (hsame.trans hid.symm)⟩
    rw [locate, hwalk, Except.map, hfind]

/-- A node that is not the root is found with its parent. -/
theorem WellFormed.locateInner_eq_some (hroot : root.field "id" ≠ .text x) :
    ∃ v, locateInner root (.text x) = .ok (some v) ∧ v.node = n := by
  obtain ⟨v, hv, rfl⟩ := h.locate_eq_some hn hid
  have hsame := Value.same_text_eq_false hroot
  have hparent : v.parent.isSome = true := by
    cases hp : v.parent with
    | some p => rfl
    | none =>
      have hplaced := (locate_eq hv).1
      have hnode := hplaced.node
      rw [hplaced.outer hp] at hnode
      cases hnode
      exact absurd hid hroot
  refine ⟨v, ?_, rfl⟩
  simp [locateInner, h.rootId_eq, hsame, hv, hparent, bind, Except.bind, pure, Except.pure,
    Option.filter]

end Lookups

/-! ## One parent for a node -/

/-- The children of all nodes of a tree are all its nodes but the root. -/
theorem flatMap_children_perm (v : Value) (h : ∀ n ∈ nodes v, ∀ c ∈ n.children, c.isObject) :
    ((nodes v).flatMap Value.children).Perm (nodesOf v.children) := by
  induction v using Value.children_induction with
  | step v ih =>
    have hobjects : ∀ c ∈ v.children, c.isObject := h v (self_mem_nodes v)
    have hbelow : nodesOf v.children = v.children.flatMap nodes := by
      rw [nodesOf_eq_flatMap, List.filter_eq_self.mpr hobjects]
    have hchildren : (v.children.flatMap nodes).flatMap Value.children =
        v.children.flatMap fun c => (nodes c).flatMap Value.children := List.flatMap_assoc
    have hgrand : (v.children.flatMap fun c => (nodes c).flatMap Value.children).Perm
        (v.children.flatMap fun c => nodesOf c.children) := by
      refine List.Perm.flatMap_left _ fun c hc => ih c hc fun n hn => h n ?_
      exact mem_nodes_of_child hc (hobjects c hc) hn
    have hself := List.flatMap_append_perm v.children (fun c => [c]) fun c => nodesOf c.children
    simp only [List.flatMap_singleton', List.singleton_append, ← nodes_eq] at hself
    rw [nodes_eq, List.flatMap_cons, hbelow, hchildren]
    exact (hgrand.append_left _).trans hself

section Parents

variable (h : WellFormed root)

include h

/-- The identifiers of the children of all nodes. -/
theorem WellFormed.nodup_flatMap_children :
    ((nodes root).flatMap fun p => p.children.map fun c => c.field "id").Nodup := by
  have hperm := flatMap_children_perm root fun n hn c hc => (h.sound n hn).isObject_child hc
  have hdistinct := h.distinct
  rw [nodes_eq, List.map_cons, List.nodup_cons] at hdistinct
  rw [← List.map_flatMap]
  exact (hperm.map _).nodup_iff.mpr hdistinct.2

variable {p q c : Value}

/-- The children of a node have different identifiers. -/
theorem WellFormed.nodup_children (hp : p ∈ nodes root) :
    (p.children.map fun c => c.field "id").Nodup :=
  (List.nodup_flatMap.mp h.nodup_flatMap_children).1 p hp

theorem WellFormed.parent_unique (hp : p ∈ nodes root) (hq : q ∈ nodes root)
    (hcp : c ∈ p.children) (hcq : c ∈ q.children) : p = q := by
  by_contra hne
  have hsymm : Std.Symm (Function.onFun List.Disjoint fun p : Value =>
      p.children.map fun c => c.field "id") := ⟨fun _ _ hd => List.disjoint_symm hd⟩
  have hapart := (List.nodup_flatMap.mp h.nodup_flatMap_children).2.forall hp hq hne
  exact hapart (List.mem_map_of_mem hcp) (List.mem_map_of_mem hcq)

theorem WellFormed.mem_nodes_child (hp : p ∈ nodes root) (hc : c ∈ p.children) : c ∈ nodes root :=
  nodes_subset hp (mem_nodes_of_child hc ((h.sound p hp).isObject_child hc) (self_mem_nodes c))

/-- An identifier is found among the children of one node only. -/
theorem WellFormed.ne_of_other_parent (hp : p ∈ nodes root) (hq : q ∈ nodes root) (hne : q ≠ p)
    (hc : c ∈ p.children) : ∀ d ∈ q.children, d.field "id" ≠ c.field "id" := by
  intro d hd hid
  obtain rfl := h.eq_of_id_eq (h.mem_nodes_child hp hc) (h.mem_nodes_child hq hd) hid
  exact hne (h.parent_unique hq hp hd hc)

/-- The other children of a node have other identifiers. -/
theorem WellFormed.ne_of_mem_eraseIdx {i : Nat} (hp : p ∈ nodes root)
    (hc : p.children[i]? = some c) : ∀ d ∈ p.children.eraseIdx i, d.field "id" ≠ c.field "id" := by
  have hperm := perm_eraseIdx hc
  have hdistinct := (hperm.map fun d => d.field "id").nodup_iff.mpr (h.nodup_children hp)
  rw [List.map_append, List.nodup_append] at hdistinct
  intro d hd
  exact hdistinct.2.2 _ (List.mem_map_of_mem hd) _ (List.mem_map_of_mem (List.mem_singleton_self c))

end Parents

/-! ## One child and the rest of the tree -/

section Child

variable {c : Value} {i : Nat} (hc : root.children[i]? = some c) (ho : c.isObject)

include hc ho

theorem nodes_split : nodes root = root :: (nodesOf (root.children.take i) ++
    (nodes c ++ nodesOf (root.children.drop (i + 1)))) := by
  rw [← nodesOf_cons ho, ← nodesOf_append, ← eq_take_cons_drop hc, nodes_eq]

/-- The nodes that are not below a child: the root, and those below the children before it and
after it. -/
theorem forall_mem_nodes_split {P : Value → Prop} (h : ∀ m ∈ nodes root, P m) :
    P root ∧ (∀ m ∈ nodesOf (root.children.take i), P m) ∧ (∀ m ∈ nodes c, P m) ∧
      ∀ m ∈ nodesOf (root.children.drop (i + 1)), P m := by
  rw [nodes_split hc ho, List.forall_mem_cons, List.forall_mem_append,
    List.forall_mem_append] at h
  exact h

/-- Where identifiers are distinct, those below one child are found nowhere else. -/
theorem apart_of_distinct (hdistinct : ((nodes root).map fun m => m.field "id").Nodup) {n : Value}
    (hn : n ∈ nodes c) :
    ((nodes c).map fun m => m.field "id").Nodup ∧ root.field "id" ≠ n.field "id" ∧
      (∀ m ∈ nodesOf (root.children.take i), m.field "id" ≠ n.field "id") ∧
      ∀ m ∈ nodesOf (root.children.drop (i + 1)), m.field "id" ≠ n.field "id" := by
  rw [nodes_split hc ho, List.map_cons, List.map_append, List.map_append, List.nodup_cons,
    List.nodup_append, List.nodup_append] at hdistinct
  obtain ⟨hnotRoot, -, ⟨hbelow, -, hnotAfter⟩, hnotBefore⟩ := hdistinct
  have hid : n.field "id" ∈ (nodes c).map fun m => m.field "id" := List.mem_map_of_mem hn
  refine ⟨hbelow, fun heq => hnotRoot ?_, fun m hm => ?_, fun m hm => ?_⟩
  · rw [heq]
    exact List.mem_append_right _ (List.mem_append_left _ hid)
  · exact hnotBefore _ (List.mem_map_of_mem hm) _ (List.mem_append_left _ hid)
  · exact (hnotAfter _ hid _ (List.mem_map_of_mem hm)).symm

end Child

end PageBuilder.Tree
