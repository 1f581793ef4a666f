import PageBuilder.Proofs.Document.Check
import PageBuilder.Proofs.Tree.Held
import PageBuilder.Proofs.Value.SameJson

/-!
The trees that the check lets through, said without an order in which their nodes are looked at.

* `Loadable`: a tree as it may be loaded;
* `Granted.loadable`, `Loadable.granted`: what is granted node by node, the names met so far in
  hand, is loadable, and the other way round;
* `tree_errors_iff_loadable`: the check is sound and complete.
-/

namespace PageBuilder.Check

open PageBuilder.Tree (Named held held_of_container held_of_leaf held_subset mem_held_of_child
  self_mem_held nodesOf nodesOf_cons nodesOf_nil nodes_eq)

/-- A tree that may be loaded: values of JSON only, and in it, from the root down through the
children of containers, nodes only, each of which is passable, with pairwise distinct identifiers
and the page as their root. -/
structure Loadable (root : Value) : Prop where
  ofJson : root.OfJson
  page : root.kind? = some .page
  inner : ∀ c ∈ root.children, ∀ n ∈ held c, n.kind? ≠ some .page
  passable : ∀ n ∈ held root, n.isObject ∧ Passable n
  distinct : ((held root).map fun n => n.field "id").Nodup

theorem isContainer_page {v : Value} (h : v.kind? = some .page) : v.isContainer = true :=
  Tree.isContainer_eq h

theorem Passable.children_eq_nil {v : Value} (h : Passable v) (hleaf : v.isContainer = false) :
    v.children = [] :=
  Value.children_eq_nil_of_get? (h.leaf hleaf)

theorem Passable.isObject {v : Value} (h : Passable v) : v.isObject = true := by
  obtain ⟨id, hid, -⟩ := h.named
  cases v with
  | object fields => rfl
  | _ => cases hid

/-- Named nodes hold nothing but nodes. -/
theorem flatMap_held_of_named {used after : List String} {vs : List Value}
    (h : Named PassableInner used vs after) : vs.flatMap held = nodesOf vs := by
  induction h with
  | nil => rw [List.flatMap_nil, nodesOf_nil]
  | @cons used between after v rest id ho hq _ _ _ _ ihBelow ihBeside =>
    have hv : held v = Tree.nodes v := by
      cases hc : v.isContainer with
      | true => rw [held_of_container hc, nodes_eq, ihBelow]
      | false => rw [held_of_leaf hc, nodes_eq, hq.passable.children_eq_nil hc, nodesOf_nil]
    rw [List.flatMap_cons, hv, ihBeside, nodesOf_cons ho]

theorem Granted.loadable {root : Value} {after : List String} (hjson : root.OfJson)
    (h : Granted true [] root after) : Loadable root := by
  obtain ⟨ho, hpassable, hpage, id, hid, -, hbelow⟩ := h
  have hpage : root.kind? = some .page := hpage.mpr rfl
  have hchildren : root.children.flatMap held = nodesOf root.children :=
    flatMap_held_of_named hbelow
  have hall : ∀ n ∈ root.children.flatMap held, PassableInner n := by
    rw [hchildren]
    exact hbelow.forall_nodes
  have hheld : held root = root :: root.children.flatMap held :=
    held_of_container (isContainer_page hpage)
  refine ⟨hjson, hpage, fun c hc n hn => ?_, ?_, ?_⟩
  · exact (hall n (List.mem_flatMap.mpr ⟨c, hc, hn⟩)).notPage
  · rw [hheld, List.forall_mem_cons]
    exact ⟨⟨ho, hpassable⟩, fun n hn => ⟨(hall n hn).passable.isObject, (hall n hn).passable⟩⟩
  · obtain ⟨names, hnames, hnodup, hnew, -⟩ := hbelow.names
    rw [hheld, List.map_cons, hid, hchildren, hnames, ← List.map_cons]
    refine List.Nodup.map (fun s t hst => by cases hst; rfl) ?_
    exact List.nodup_cons.mpr ⟨fun hmem => hnew id hmem (List.mem_singleton_self id), hnodup⟩

theorem Loadable.held_eq_nodes {root : Value} (h : Loadable root) : held root = Tree.nodes root :=
  Tree.held_eq_nodes fun n hn => ⟨(h.passable n hn).1, (h.passable n hn).2.children_eq_nil⟩

/-- The children of what is held are held. -/
theorem Loadable.mem_held_child {root n c : Value} (h : Loadable root) (hn : n ∈ held root)
    (hc : c ∈ n.children) : c ∈ held root := by
  cases hcont : n.isContainer with
  | true => exact held_subset hn (mem_held_of_child hcont hc (self_mem_held c))
  | false =>
    rw [(h.passable n hn).2.children_eq_nil hcont] at hc
    cases hc

theorem Loadable.granted {root : Value} (h : Loadable root) :
    ∃ after, Granted true [] root after := by
  obtain ⟨ho, hroot⟩ := h.passable root (self_mem_held root)
  obtain ⟨id, hid, -⟩ := hroot.named
  have hchildren : root.children.flatMap held = nodesOf root.children := by
    have hheld := h.held_eq_nodes
    rw [held_of_container (isContainer_page h.page), nodes_eq] at hheld
    exact (List.cons.inj hheld).2
  have hbelow : ∀ n ∈ nodesOf root.children, n ∈ held root ∧ PassableInner n := by
    intro n hn
    rw [← hchildren] at hn
    obtain ⟨c, hc, hnc⟩ := List.mem_flatMap.mp hn
    have hheld := mem_held_of_child (isContainer_page h.page) hc hnc
    exact ⟨hheld, (h.passable n hheld).2, h.inner c hc n hnc⟩
  have hobjects : ∀ n ∈ held root, ∀ c ∈ n.children, c.isObject :=
    fun n hn c hc => (h.passable c (h.mem_held_child hn hc)).1
  have hdistinct := h.distinct
  rw [h.held_eq_nodes] at hdistinct
  obtain ⟨after, hnamed⟩ := Named.of_distinct_below (Q := PassableInner) hid hdistinct
    (hobjects root (self_mem_held root))
    (fun n hn => ⟨(hbelow n hn).2, hobjects n (hbelow n hn).1⟩)
    (fun n hn => (hbelow n hn).2.passable.named.imp fun _ hid => hid.1)
  exact ⟨after, ho, hroot, by simp [h.page], id, hid, by simp, hnamed⟩

/-- The check finds no error just in the trees that may be loaded. -/
theorem tree_errors_iff_loadable (root : Value) : (tree root).errors = [] ↔ Loadable root := by
  rw [tree_errors_iff, Value.offence?_eq_none_iff_ofJson]
  constructor
  · rintro ⟨hjson, after, hgranted⟩
    exact hgranted.loadable hjson
  · intro h
    exact ⟨h.ofJson, h.granted⟩

end PageBuilder.Check
