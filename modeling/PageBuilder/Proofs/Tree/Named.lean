import PageBuilder.Proofs.Tree.WellFormed

/-!
Trees whose nodes are named one after the other: the form in which a walk that collects the names
in use sees that all names are different.

* `Named.names`: the names of all nodes are pairwise distinct, and in use afterwards;
* `Named.of_distinct`: nodes with pairwise distinct names can be named one after the other;
* `WellFormed.of_named`, `WellFormed.named`: well-formed trees are named this way.
-/

namespace PageBuilder.Tree

/-- The nodes of some trees satisfy `Q` and have names that are not in use, neither in `used` nor by
the nodes before them; `after` are the names in use then. -/
inductive Named (Q : Value → Prop) : List String → List Value → List String → Prop where
  | nil (used : List String) : Named Q used [] used
  | cons {used between after : List String} {v : Value} {rest : List Value} {id : String}
      (isObject : v.isObject) (fits : Q v) (hasName : v.field "id" = .text id) (fresh : id ∉ used)
      (below : Named Q (id :: used) v.children between) (beside : Named Q between rest after) :
      Named Q used (v :: rest) after

namespace Named

variable {Q : Value → Prop} {used between after : List String} {v : Value} {vs rest : List Value}

theorem cons_iff : Named Q used (v :: rest) after ↔
    v.isObject ∧ Q v ∧ ∃ id between, v.field "id" = .text id ∧ id ∉ used ∧
      Named Q (id :: used) v.children between ∧ Named Q between rest after := by
  constructor
  · intro h
    cases h with
    | cons ho hq hid hnew hbelow hbeside => exact ⟨ho, hq, _, _, hid, hnew, hbelow, hbeside⟩
  · rintro ⟨ho, hq, id, between, hid, hnew, hbelow, hbeside⟩
    exact .cons ho hq hid hnew hbelow hbeside

theorem nil_iff : Named Q used [] after ↔ after = used := by
  constructor
  · intro h
    cases h
    rfl
  · rintro rfl
    exact .nil _

theorem singleton_iff : Named Q used [v] after ↔
    v.isObject ∧ Q v ∧ ∃ id, v.field "id" = .text id ∧ id ∉ used ∧
      Named Q (id :: used) v.children after := by
  rw [cons_iff]
  constructor
  · rintro ⟨ho, hq, id, between, hid, hnew, hbelow, hbeside⟩
    rw [nil_iff] at hbeside
    subst hbeside
    exact ⟨ho, hq, id, hid, hnew, hbelow⟩
  · rintro ⟨ho, hq, id, hid, hnew, hbelow⟩
    exact ⟨ho, hq, id, after, hid, hnew, hbelow, .nil after⟩

theorem cons_iff_singleton : Named Q used (v :: rest) after ↔
    ∃ between, Named Q used [v] between ∧ Named Q between rest after := by
  constructor
  · intro h
    obtain ⟨ho, hq, id, between, hid, hnew, hbelow, hbeside⟩ := cons_iff.mp h
    exact ⟨between, singleton_iff.mpr ⟨ho, hq, id, hid, hnew, hbelow⟩, hbeside⟩
  · rintro ⟨between, hv, hrest⟩
    obtain ⟨ho, hq, id, hid, hnew, hbelow⟩ := singleton_iff.mp hv
    exact .cons ho hq hid hnew hbelow hrest

theorem isObject_of_mem (h : Named Q used vs after) : ∀ c ∈ vs, c.isObject := by
  induction h with
  | nil used =>
    intro c hc
    cases hc
  | cons ho hq hid hnew hbelow hbeside ihBelow ihBeside =>
    intro c hc
    rcases List.mem_cons.mp hc with rfl | hc
    · exact ho
    · exact ihBeside c hc

theorem forall_nodes (h : Named Q used vs after) : ∀ n ∈ nodesOf vs, Q n := by
  induction h with
  | nil used =>
    intro n hn
    rw [nodesOf_nil] at hn
    cases hn
  | cons ho hq hid hnew hbelow hbeside ihBelow ihBeside =>
    intro n hn
    rw [nodesOf_cons ho, nodes_eq] at hn
    rcases List.mem_append.mp hn with hn | hn
    · rcases List.mem_cons.mp hn with rfl | hn
      · exact hq
      · exact ihBelow n hn
    · exact ihBeside n hn

theorem imp {R : Value → Prop} (hi : ∀ v, Q v → R v) (h : Named Q used vs after) :
    Named R used vs after := by
  induction h with
  | nil used => exact .nil used
  | cons ho hq hid hnew hbelow hbeside ihBelow ihBeside =>
    exact .cons ho (hi _ hq) hid hnew ihBelow ihBeside

/-- What holds of all nodes can be said of them beside `Q`. -/
theorem and {R : Value → Prop} (h : Named Q used vs after) (hr : ∀ n ∈ nodesOf vs, R n) :
    Named (fun v => Q v ∧ R v) used vs after := by
  induction h with
  | nil used => exact .nil used
  | cons ho hq hid hnew hbelow hbeside ihBelow ihBeside =>
    rw [nodesOf_cons ho, nodes_eq] at hr
    refine .cons ho ⟨hq, hr _ ?_⟩ hid hnew (ihBelow fun n hn => hr n ?_)
      (ihBeside fun n hn => hr n ?_)
    · exact List.mem_append_left _ (List.mem_cons_self ..)
    · exact List.mem_append_left _ (List.mem_cons_of_mem _ hn)
    · exact List.mem_append_right _ hn

/-- The names of all nodes are pairwise distinct and new, and in use afterwards. -/
theorem names (h : Named Q used vs after) :
    ∃ names : List String, (nodesOf vs).map (fun n => n.field "id") = names.map .text ∧
      names.Nodup ∧ (∀ s ∈ names, s ∉ used) ∧ after = names.reverse ++ used := by
  induction h with
  | nil used => exact ⟨[], by rw [nodesOf_nil]; rfl, .nil, by simp, rfl⟩
  | @cons used between after v rest id ho hq hid hnew hbelow hbeside ihBelow ihBeside =>
    obtain ⟨below, hnames, hnodup, hfresh, rfl⟩ := ihBelow
    obtain ⟨beside, hnames', hnodup', hfresh', rfl⟩ := ihBeside
    refine ⟨id :: (below ++ beside), ?_, ?_, ?_, ?_⟩
    · rw [nodesOf_cons ho, nodes_eq, List.cons_append, List.map_cons, List.map_append, hid, hnames,
        hnames', List.map_cons, List.map_append]
    · rw [List.nodup_cons, List.mem_append, not_or, List.nodup_append]
      refine ⟨⟨fun hmem => hfresh id hmem (List.mem_cons_self ..), ?_⟩, hnodup, hnodup', ?_⟩
      · exact fun hmem => hfresh' id hmem (List.mem_append_right _ (List.mem_cons_self ..))
      · rintro s hs t ht rfl
        exact hfresh' s ht (List.mem_append_left _ (List.mem_reverse.mpr hs))
    · intro s hs hused
      rcases List.mem_cons.mp hs with rfl | hs
      · exact hnew hused
      · rcases List.mem_append.mp hs with hs | hs
        · exact hfresh s hs (List.mem_cons_of_mem _ hused)
        · exact hfresh' s hs (List.mem_append_right _ (List.mem_cons_of_mem _ hused))
    · simp

/-- Nodes with pairwise distinct names can be named one after the other. -/
theorem of_distinct (hobject : ∀ c ∈ vs, c.isObject)
    (hnodes : ∀ n ∈ nodesOf vs, Q n ∧ ∀ c ∈ n.children, c.isObject) {names : List String}
    (hnames : (nodesOf vs).map (fun n => n.field "id") = names.map .text) (hnodup : names.Nodup)
    (hnew : ∀ s ∈ names, s ∉ used) : Named Q used vs (names.reverse ++ used) := by
  induction hl : (nodesOf vs).length using Nat.strongRecOn generalizing vs names used with
  | ind length ih =>
    subst hl
    cases vs with
    | nil =>
      rw [nodesOf_nil] at hnames
      obtain rfl : names = [] := by simpa using hnames.symm
      exact .nil used
    | cons v rest =>
      have ho := hobject v (List.mem_cons_self ..)
      rw [nodesOf_cons ho, nodes_eq, List.cons_append] at hnames hnodes ih
      rw [List.map_cons, List.map_append] at hnames
      obtain ⟨id, others, rfl, hid, hothers⟩ := List.map_eq_cons_iff.mp hnames.symm
      obtain ⟨below, beside, rfl, hbelow, hbeside⟩ := List.map_eq_append_iff.mp hothers
      rw [List.nodup_cons, List.mem_append, not_or, List.nodup_append] at hnodup
      obtain ⟨⟨hnotBelow, hnotBeside⟩, hnodupBelow, hnodupBeside, hdisjoint⟩ := hnodup
      obtain ⟨hq, hchildren⟩ := hnodes v (List.mem_cons_self ..)
      rw [List.length_cons, List.length_append] at ih
      have hafter : (id :: (below ++ beside)).reverse ++ used =
          beside.reverse ++ (below.reverse ++ id :: used) := by simp
      have hfirst : Named Q (id :: used) v.children (below.reverse ++ id :: used) := by
        refine ih _ (by omega) hchildren (fun n hn => hnodes n ?_) hbelow.symm hnodupBelow ?_ rfl
        · exact List.mem_cons_of_mem _ (List.mem_append_left _ hn)
        · intro s hs hused
          rcases List.mem_cons.mp hused with rfl | hused
          · exact hnotBelow hs
          · exact hnew s (List.mem_cons_of_mem _ (List.mem_append_left _ hs)) hused
      have hothers : Named Q (below.reverse ++ id :: used) rest
          (beside.reverse ++ (below.reverse ++ id :: used)) := by
        refine ih _ (by omega) (fun c hc => hobject c (List.mem_cons_of_mem _ hc))
          (fun n hn => hnodes n ?_) hbeside.symm hnodupBeside ?_ rfl
        · exact List.mem_cons_of_mem _ (List.mem_append_right _ hn)
        · intro s hs hused
          rcases List.mem_append.mp hused with hused | hused
          · exact hdisjoint s (List.mem_reverse.mp hused) s hs rfl
          · rcases List.mem_cons.mp hused with rfl | hused
            · exact hnotBeside hs
            · exact hnew s (List.mem_cons_of_mem _ (List.mem_append_right _ hs)) hused
      rw [hafter]
      exact .cons ho hq hid.symm (hnew id (List.mem_cons_self ..)) hfirst hothers

end Named

/-! ## Well-formed trees -/

/-- A sound node that may be below the root. -/
structure Inner (v : Value) : Prop where
  sound : Sound v
  notPage : v.kind? ≠ some .page

/-- An inner node with its properties. -/
structure Stored (v : Value) : Prop where
  inner : Inner v
  props : (v.field "props").isObject

theorem WellFormed.of_named {root : Value} {id : String} {after : List String}
    (hpage : root.kind? = some .page) (hsound : Sound root) (hid : root.field "id" = .text id)
    (hbelow : Named Inner [id] root.children after) : WellFormed root where
  page := hpage
  sound := by
    intro v hv
    rw [nodes_eq] at hv
    rcases List.mem_cons.mp hv with rfl | hv
    · exact hsound
    · exact (hbelow.forall_nodes v hv).sound
  inner := fun v hv => (hbelow.forall_nodes v hv).notPage
  distinct := by
    obtain ⟨names, hnames, hnodup, hnew, -⟩ := hbelow.names
    rw [nodes_eq, List.map_cons, hid, hnames, ← List.map_cons]
    refine List.Nodup.map (fun s t hst => by cases hst; rfl) ?_
    rw [List.nodup_cons]
    exact ⟨fun hmem => hnew id hmem (List.mem_cons_self ..), hnodup⟩

/-- The texts among identifiers that are texts are all identifiers. -/
theorem map_id_eq_map_text {ns : List Value} (h : ∀ n ∈ ns, ∃ id, n.field "id" = .text id) :
    ns.map (fun n => n.field "id") =
      ((ns.map fun n => n.field "id").filterMap Value.text?).map .text := by
  induction ns with
  | nil => rfl
  | cons n rest ih =>
    obtain ⟨id, hid⟩ := h n (List.mem_cons_self ..)
    have hrest := ih fun m hm => h m (List.mem_cons_of_mem _ hm)
    rw [List.map_cons, hid, List.filterMap_cons_some (f := Value.text?) (b := id) rfl,
      List.map_cons, ← hrest]

theorem ids_eq_map_text {ns : List Value} (h : ∀ n ∈ ns, Sound n) :
    ns.map (fun n => n.field "id") =
      ((ns.map fun n => n.field "id").filterMap Value.text?).map .text :=
  map_id_eq_map_text fun n hn => (h n hn).named.imp fun _ hid => hid.1

/-- What is below a node whose tree has distinct identifiers can be named after it. -/
theorem Named.of_distinct_below {Q : Value → Prop} {v : Value} {id : String}
    (hid : v.field "id" = .text id) (hdistinct : ((nodes v).map fun n => n.field "id").Nodup)
    (hobject : ∀ c ∈ v.children, c.isObject)
    (hnodes : ∀ n ∈ nodesOf v.children, Q n ∧ ∀ c ∈ n.children, c.isObject)
    (htexts : ∀ n ∈ nodesOf v.children, ∃ s, n.field "id" = .text s) :
    ∃ after, Named Q [id] v.children after := by
  have hnames := map_id_eq_map_text htexts
  rw [nodes_eq, List.map_cons, hid, hnames, ← List.map_cons] at hdistinct
  have hnodup := List.Nodup.of_map _ hdistinct
  rw [List.nodup_cons] at hnodup
  refine ⟨_, .of_distinct hobject hnodes hnames hnodup.2 fun s hs hused => ?_⟩
  rw [List.mem_singleton] at hused
  subst hused
  exact hnodup.1 hs

theorem WellFormed.named {root : Value} (h : WellFormed root) :
    ∃ id after, root.field "id" = .text id ∧ id ≠ "" ∧ Named Inner [id] root.children after := by
  have hself : Sound root := h.sound root (self_mem_nodes root)
  obtain ⟨id, hid, hne⟩ := hself.named
  have hbelow : ∀ n ∈ nodesOf root.children, Sound n := by
    intro n hn
    refine h.sound n ?_
    rw [nodes_eq]
    exact List.mem_cons_of_mem _ hn
  obtain ⟨after, hnamed⟩ := Named.of_distinct_below (Q := Inner) hid h.distinct
    (fun c hc => hself.isObject_child hc)
    (fun n hn => ⟨⟨hbelow n hn, h.inner n hn⟩, fun c hc => (hbelow n hn).isObject_child hc⟩)
    (fun n hn => (hbelow n hn).named.imp fun _ hid => hid.1)
  exact ⟨id, after, hid, hne, hnamed⟩

end PageBuilder.Tree
