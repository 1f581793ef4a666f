import PageBuilder.Proofs.Store.Operations
import PageBuilder.Proofs.Tree.Insertion

/-!
A move is a cut and a paste.

* `WellFormed.length_children_detach`: a node that is left by a cut has lost the child that was cut
  off, and no other;
* `WellFormed.named_detached`: what was cut off is named beside what is left;
* `WellFormed.exists_cut_paste`, `Store.move_eq_remove_insert`: to move a node to the end of a child
  list is to remove it and to insert it there.
-/

namespace PageBuilder.Tree

variable {root : Value}

/-! ## What a cut leaves -/

/-- Where one child list only loses members, every other node keeps the number of its children. -/
theorem mem_nodes_editChildren {n m : Value} {a : List Nat} {f : List Value → List Value}
    (h : nodeAt? root a = some n) (hn : n.isObject) (hf : f n.children ⊆ n.children)
    (hm : m ∈ nodes (editAt a (editChildren f) root)) :
    m = editChildren f n ∨ ∃ p ∈ nodes root, m.field "id" = p.field "id" ∧
      m.children.length = p.children.length := by
  induction a generalizing root with
  | nil =>
    cases h
    rw [editAt, nodes_eq, children_editChildren hn] at hm
    rcases List.mem_cons.mp hm with rfl | hm
    · exact .inl rfl
    · obtain ⟨c, hc, ho, hmc⟩ := mem_nodesOf.mp hm
      exact .inr ⟨m, mem_nodes_of_child (hf hc) ho hmc, rfl, rfl⟩
  | cons i rest ih =>
    obtain ⟨c, hc, hrest⟩ := nodeAt?_cons h
    have hmem : c ∈ root.children := List.mem_of_getElem? hc
    have ho : root.isObject = true := isObject_of_mem_children hmem
    rw [editAt, nodes_eq, children_editChildren ho] at hm
    rcases List.mem_cons.mp hm with rfl | hm
    · refine .inr ⟨root, self_mem_nodes root, field_editChildren (by decide) _ _, ?_⟩
      rw [children_editChildren ho, List.length_modify]
    · obtain ⟨d, hd, hdo, hmd⟩ := mem_nodesOf.mp hm
      rw [modify_eq_take_cons_drop hc, List.mem_append, List.mem_cons] at hd
      rcases hd with hd | rfl | hd
      · exact .inr ⟨m, mem_nodes_of_child (List.mem_of_mem_take hd) hdo hmd, rfl, rfl⟩
      · rcases ih hrest hmd with hself | ⟨p, hp, hid, hlength⟩
        · exact .inl hself
        · have hco := isObject_of_nodeAt? hrest hn
          exact .inr ⟨p, mem_nodes_of_child hmem hco hp, hid, hlength⟩
      · exact .inr ⟨m, mem_nodes_of_child (List.mem_of_mem_drop hd) hdo hmd, rfl, rfl⟩

/-- All children count that have another identifier. -/
theorem countP_others {items : List Value} {x : String} (h : ∀ c ∈ items, c.field "id" ≠ .text x) :
    items.countP (fun c => !(c.field "id").isTextOf x) = items.length := by
  rw [List.countP_eq_length]
  intro c hc
  rw [Value.isTextOf_eq_false (h c hc)]
  rfl

section Cut

variable (h : WellFormed root) {v : Visit} {x : String}

include h

/-- The child that is cut off is the only one with its identifier. -/
theorem WellFormed.length_eraseIdx {p c : Value} {i : Nat} (hp : p ∈ nodes root)
    (hc : p.children[i]? = some c) (hx : c.field "id" = .text x) :
    (p.children.eraseIdx i).length = p.children.countP fun d => !(d.field "id").isTextOf x := by
  have hothers : ∀ d ∈ p.children.eraseIdx i, d.field "id" ≠ .text x := by
    rw [← hx]
    exact h.ne_of_mem_eraseIdx hp hc
  rw [← (perm_eraseIdx hc).countP_eq, List.countP_append, countP_others hothers,
    List.countP_singleton, hx]
  simp [Value.isTextOf]

/-- A node is found among the children of its parent only. -/
theorem WellFormed.countP_eq_length {p q c : Value} (hp : p ∈ nodes root) (hq : q ∈ nodes root)
    (hne : q ≠ p) (hc : c ∈ p.children) (hx : c.field "id" = .text x) :
    q.children.countP (fun d => !(d.field "id").isTextOf x) = q.children.length := by
  apply countP_others
  rw [← hx]
  exact h.ne_of_other_parent hp hq hne hc

variable (hl : locateInner root (.text x) = .ok (some v))

include hl

/-- A node that is left has lost the child that was cut off, if it was its own. -/
theorem WellFormed.length_children_detach {p q : Value} (hp : p ∈ nodes root)
    (hq : q ∈ nodes (Tree.detach root v)) (hid : q.field "id" = p.field "id") :
    q.children.length = p.children.countP fun c => !(c.field "id").isTextOf x := by
  obtain ⟨hplaced, hsame, above, -, -, habove, hchild⟩ := locateInner_eq hl
  have hx : v.node.field "id" = .text x := (Value.same_text_iff _ _).mp hsame
  have hmem : v.node ∈ above.children := List.mem_of_getElem? hchild
  have ho : above.isObject = true := isObject_of_mem_children hmem
  have hin : above ∈ nodes root := mem_nodes_of_nodeAt? habove ho
  by_cases hpa : p = above
  · subst hpa
    have hcut : Tree.editChildren (fun children => children.eraseIdx v.index) p ∈
        nodes (Tree.detach root v) :=
      mem_nodes_of_nodeAt? (nodeAt?_editAt habove _) ((isObject_editChildren _ p).trans ho)
    have hqp : q = Tree.editChildren (fun children => children.eraseIdx v.index) p :=
      (h.detach habove hchild hplaced.isObject).eq_of_id_eq hcut hq
        (hid.trans (field_editChildren (by decide) _ _).symm)
    rw [hqp, children_editChildren ho]
    exact h.length_eraseIdx hp hchild hx
  · have hsub : above.children.eraseIdx v.index ⊆ above.children :=
      (List.eraseIdx_sublist _ _).subset
    rcases mem_nodes_editChildren habove ho hsub hq with rfl | ⟨q', hq', hid', hlength⟩
    · rw [field_editChildren (by decide)] at hid
      exact absurd (h.eq_of_id_eq hin hp hid.symm) hpa
    · obtain rfl := h.eq_of_id_eq hp hq' (hid'.symm.trans hid)
      rw [hlength, h.countP_eq_length hin hp hpa hmem hx]

/-- The identifiers are divided among what is left and what was cut off. -/
theorem WellFormed.ids_detach :
    ((nodes (Tree.detach root v)).map (fun n => n.field "id") ++
      (nodes v.node).map fun n => n.field "id").Nodup := by
  obtain ⟨hplaced, -, above, -, -, habove, hchild⟩ := locateInner_eq hl
  have hperm := map_nodes_detach (g := fun n => n.field "id")
    (fun f n => field_editChildren (by decide) f n) habove hchild hplaced.isObject
  exact hperm.nodup_iff.mpr h.distinct

/-- Whatever is not below the cut is left, with its kind. -/
theorem WellFormed.exists_left {p : Value} (hp : p ∈ nodes root) (hout : p ∉ nodes v.node) :
    ∃ q ∈ nodes (Tree.detach root v), q.field "id" = p.field "id" ∧ q.kind? = p.kind? := by
  obtain ⟨hplaced, -, above, -, -, habove, hchild⟩ := locateInner_eq hl
  have hperm := map_nodes_detach (g := fun n => (n.field "id", n.kind?))
    (fun f n => by rw [field_editChildren (by decide), kind?_editChildren]) habove hchild
    hplaced.isObject
  have hread := hperm.symm.subset (List.mem_map_of_mem (f := fun n => (n.field "id", n.kind?)) hp)
  rcases List.mem_append.mp hread with hleft | hcut
  · obtain ⟨q, hq, heq⟩ := List.mem_map.mp hleft
    exact ⟨q, hq, congrArg Prod.fst heq, congrArg Prod.snd heq⟩
  · obtain ⟨m, hm, heq⟩ := List.mem_map.mp hcut
    have hmr := nodes_subset hplaced.mem_nodes hm
    obtain rfl := h.eq_of_id_eq hp hmr (congrArg Prod.fst heq)
    exact absurd hm hout

/-- What was cut off is named beside what is left, so that it can be inserted as it is. -/
theorem WellFormed.named_detached (hprops : ∀ m ∈ nodes v.node, (m.field "props").isObject) :
    ∃ after, Named Stored
      (((nodes (Tree.detach root v)).map fun n => n.field "id").filterMap Value.text?)
      [v.node] after := by
  obtain ⟨hplaced, -, above, -, -, habove, hchild⟩ := locateInner_eq hl
  have ho : v.node.isObject = true := hplaced.isObject
  have hself := nodesOf_singleton ho
  have hsound : ∀ m ∈ nodes v.node, Sound m := fun m hm =>
    h.sound m (nodes_subset hplaced.mem_nodes hm)
  have hstored : ∀ m ∈ nodes v.node, Stored m := by
    intro m hm
    have hmark : mark m ∈ marksOf root.children :=
      (marksOf_detach habove hchild ho).subset
        (List.mem_append_right _ (List.mem_map_of_mem (f := mark) hm))
    exact ⟨⟨hsound m hm, beq_eq_false_iff_ne.mp (h.markedWell.inner _ hmark)⟩, hprops m hm⟩
  have hids := h.ids_detach hl
  have hnames := ids_eq_map_text hsound
  rw [List.nodup_append, hnames] at hids
  refine ⟨_, .of_distinct ?_ ?_ (hself ▸ hnames) (List.Nodup.of_map _ hids.2.1) ?_⟩
  · intro c hc
    rwa [List.mem_singleton.mp hc]
  · rw [hself]
    exact fun m hm => ⟨hstored m hm, fun c hc => (hsound m hm).isObject_child hc⟩
  · intro s hs hused
    obtain ⟨w, hw, htext⟩ := List.mem_filterMap.mp hused
    exact hids.2.2 w hw (.text s) (List.mem_map_of_mem hs) (Value.text?_eq_some htext)

end Cut

/-! ## Cutting and pasting -/

/-- A place at or beyond the end of a child list is its end. -/
theorem insertAt_eq_append {items : List Value} {place : Int} (h : items.length ≤ place)
    (item : Value) : insertAt place item items = items ++ [item] := by
  have hend : min place.toNat items.length = items.length := by omega
  rw [insertAt, hend, List.insertIdx_length_self]

section Paste

variable (h : WellFormed root) {v target : Visit} {x t : String}

include h

/-- A node that is found can be cut off. -/
theorem WellFormed.remove_eq_some (hl : locateInner root (.text x) = .ok (some v)) :
    ∃ removed, Tree.remove root (.text x) = .ok (some (Tree.detach root v, removed)) := by
  have hplaced := (locateInner_eq hl).1
  have hsound : ∀ m ∈ nodes v.node, Sound m := fun m hm =>
    h.sound m (nodes_subset hplaced.mem_nodes hm)
  refine ⟨(nodes v.node).map fun n => n.field "id", bind_eq_ok_iff.mpr ⟨some v, hl, ?_⟩⟩
  refine bind_eq_ok_iff.mpr ⟨_, ids_eq hplaced.isObject, ?_⟩
  exact if_pos (all_isHashable_ids hsound)

/-- A node that is named beside a tree is inserted into it as it is. -/
theorem WellFormed.insert_eq_some (source : IdSource) (drawn : Nat) {n : Value}
    {after : List String} (hl : locate root (.text t) = .ok (some target))
    (hc : target.node.isContainer = true)
    (hnamed : Named Stored (((nodes root).map fun n => n.field "id").filterMap Value.text?) [n]
      after) (hx : n.field "id" = .text x) :
    Tree.insert source drawn root (.text t) n =
      (.ok (some (editAt target.address (Tree.editChildren fun children => children ++ [n]) root,
        x)), drawn) := by
  obtain ⟨hplaced, hsame⟩ := locate_eq hl
  have hid : target.node.field "id" = .text t := (Value.same_text_iff _ _).mp hsame
  obtain ⟨v, hv, -, happended⟩ := h.exists_appended hplaced.mem_nodes hid hc
  rw [hl] at hv
  cases hv
  have hsettle : Fresh.settle source n ⟨namesIn root, drawn⟩ = (.ok n, ⟨after, drawn⟩) :=
    Fresh.settle_of_named n _ _ hnamed
  rw [h.insert_at hplaced.mem_nodes hid hc, hsettle, insertion, happended, hx]
  rfl

theorem WellFormed.move_eq_some {k : Value} {place : Int} (hxt : x ≠ t)
    (hroot : root.field "id" ≠ .text x) (hl : locateInner root (.text x) = .ok (some v))
    (ht : locate (Tree.detach root v) (.text t) = .ok (some target))
    (hc : target.node.isContainer = true) (hk : k.integer = .ok place) :
    Tree.move root (.text x) (.text t) k =
      .ok (some (editAt target.address (Tree.editChildren (insertAt place v.node))
        (Tree.detach root v))) := by
  have hfirst : ((root.field "id").same (.text x) || (Value.text x).same (.text t)) = false := by
    rw [Value.same_text_eq_false hroot, Value.same_text_eq_false fun heq => hxt (by cases heq; rfl)]
    rfl
  simp [Tree.move, h.rootId_eq, hfirst, hl, ht, hc, hk, bind, Except.bind, pure, Except.pure]

/-- A container that is not below a cut is found in what is left. -/
theorem WellFormed.exists_target {n p : Value} (hn : n ∈ nodes root) (hx : n.field "id" = .text x)
    (hroot : root.field "id" ≠ .text x) (hp : p ∈ nodes root) (ht : p.field "id" = .text t)
    (hc : p.isContainer = true) (hout : p ∉ nodes n) :
    x ≠ t ∧ ∃ v target, v.node = n ∧ locateInner root (.text x) = .ok (some v) ∧
      WellFormed (Tree.detach root v) ∧
      locate (Tree.detach root v) (.text t) = .ok (some target) ∧
      target.node.isContainer = true := by
  obtain ⟨v, hl, rfl⟩ := h.locateInner_eq_some hn hx hroot
  obtain ⟨hplaced, -, above, -, -, habove, hchild⟩ := locateInner_eq hl
  have hrest : WellFormed (Tree.detach root v) := h.detach habove hchild hplaced.isObject
  obtain ⟨q, hq, hqid, hqkind⟩ := h.exists_left hl hp hout
  obtain ⟨target, hlt, rfl⟩ := hrest.locate_eq_some hq (hqid.trans ht)
  refine ⟨?_, v, target, rfl, hl, hrest, hlt, ?_⟩
  · rintro rfl
    obtain rfl := h.eq_of_id_eq hn hp (ht.trans hx.symm)
    exact hout (self_mem_nodes _)
  · rwa [Value.isContainer, hqkind, ← Value.isContainer]

/-- To move a node to the end of the children of a container is to remove it and to insert it
there. -/
theorem WellFormed.exists_cut_paste {n p : Value} (hn : n ∈ nodes root)
    (hx : n.field "id" = .text x) (hroot : root.field "id" ≠ .text x)
    (hprops : ∀ m ∈ nodes n, (m.field "props").isObject)
    (hp : p ∈ nodes root) (ht : p.field "id" = .text t) (hc : p.isContainer = true)
    (hout : p ∉ nodes n) {k : Value} {place : Int} (hk : k.integer = .ok place)
    (hplace : p.children.countP (fun c => !(c.field "id").isTextOf x) ≤ place)
    (source : IdSource) (drawn : Nat) :
    ∃ rest removed root', Tree.remove root (.text x) = .ok (some (rest, removed)) ∧
      Tree.insert source drawn rest (.text t) n = (.ok (some (root', x)), drawn) ∧
      Tree.move root (.text x) (.text t) k = .ok (some root') := by
  obtain ⟨hxt, v, target, rfl, hl, hrest, hlt, htarget⟩ :=
    h.exists_target hn hx hroot hp ht hc hout
  obtain ⟨hat, hsame⟩ := locate_eq hlt
  have hid : target.node.field "id" = p.field "id" :=
    ((Value.same_text_iff _ _).mp hsame).trans ht.symm
  -- the container has lost no child but the one that was cut off
  have hlength := h.length_children_detach hl hp hat.mem_nodes hid
  have hend : Tree.editChildren (insertAt place v.node) target.node =
      Tree.editChildren (fun children => children ++ [v.node]) target.node :=
    editChildren_congr (insertAt_eq_append (by omega) v.node)
  obtain ⟨removed, hremove⟩ := h.remove_eq_some hl
  obtain ⟨after, hnamed⟩ := h.named_detached hl hprops
  refine ⟨_, removed, _, hremove, hrest.insert_eq_some source drawn hlt htarget hnamed hx, ?_⟩
  rw [← editAt_congr hat.node hend]
  exact h.move_eq_some hxt hroot hl hlt htarget hk

end Paste

end PageBuilder.Tree

namespace PageBuilder.Store

open PageBuilder.Tree

/-- A move to the end of the children of a container gives the tree that a removal and an insertion
give, and the insertion has nothing to change. -/
theorem move_eq_remove_insert {s : Store} (h : WellFormed s.root) {n p : Value} {x t : String}
    (hn : n ∈ nodes s.root) (hx : n.field "id" = .text x) (hroot : s.root.field "id" ≠ .text x)
    (hprops : ∀ m ∈ nodes n, (m.field "props").isObject = true)
    (hp : p ∈ nodes s.root) (ht : p.field "id" = .text t) (hc : p.isContainer = true)
    (hout : p ∉ nodes n) {k : Value} {place : Int} (hk : k.integer = .ok place)
    (hplace : p.children.countP (fun c => !(c.field "id").isTextOf x) ≤ place)
    (source : IdSource) (drawn : Nat) :
    Tree.find s.root (.text x) = .ok (some n) ∧
      (s.move (.text x) (.text t) k).1 = .ok true ∧
      (s.selected.isHashable → (s.remove (.text x)).1 = .ok true) ∧
      ((s.remove (.text x)).2.insert source drawn (.text t) n).result = .ok (some x) ∧
      ((s.remove (.text x)).2.insert source drawn (.text t) n).drawn = drawn ∧
      ((s.remove (.text x)).2.insert source drawn (.text t) n).store.root =
        (s.move (.text x) (.text t) k).2.root := by
  obtain ⟨rest, removed, root', hremove, hinsert, hmove⟩ :=
    h.exists_cut_paste hn hx hroot hprops hp ht hc hout hk hplace source drawn
  have hleft : (s.remove (.text x)).2.root = rest := by
    rw [Store.remove, hremove]
    exact deselect_root ..
  have hpaste : (s.remove (.text x)).2.insert source drawn (.text t) n =
      ⟨.ok (some x), (s.remove (.text x)).2.withRoot root', drawn⟩ := by
    rw [Store.insert, hleft, hinsert, inserted]
  have hfound : Tree.find s.root (.text x) = .ok (some n) := by
    obtain ⟨w, hw, rfl⟩ := h.locate_eq_some hn hx
    rw [Tree.find, hw]
    rfl
  refine ⟨hfound, ?_, fun hselected => ?_, ?_, ?_, ?_⟩
  · rw [Store.move, hmove]
    rfl
  · rw [Store.remove, hremove]
    have hcleared := deselect_eq (s := s.withRoot rest) hselected removed
    exact congrArg Prod.fst hcleared
  · rw [hpaste]
  · rw [hpaste]
  · rw [hpaste, Store.move, hmove]
    rfl

/-- A row of two texts, to be moved to the end of a column. -/
def shelf : Value := .ofFields [("id", .text "shelf"), ("type", .text "row"), ("props", .object []),
  ("children", .list [
    .ofFields [("id", .text "left"), ("type", .text "text"), ("props", .object [])],
    .ofFields [("id", .text "right"), ("type", .text "text"), ("props", .object [])]])]

def column : Value := .ofFields [("children", .list [
    .ofFields [("id", .text "door"), ("type", .text "button"), ("props", .object [])]]),
  ("id", .text "column"), ("type", .text "column"), ("props", .object [])]

def cupboard : Value := .ofFields [("id", .text "cupboard"), ("type", .text "page"),
  ("props", .object []), ("children", .list [shelf, column])]

theorem wellFormed_cupboard : WellFormed cupboard ∧
    ∀ n ∈ nodes cupboard, (n.field "props").isObject := by
  have hshaped : Document.shaped cupboard = cupboard := by cbv
  have hpassed : (Check.tree cupboard).errors = [] := List.isEmpty_iff.mp (by decide +kernel)
  rw [← hshaped]
  exact Document.wellFormed_shaped hpassed

theorem shelf_mem_cupboard : shelf ∈ nodes cupboard := by
  have hchildren : cupboard.children = [shelf, column] := rfl
  refine mem_nodes_of_child ?_ rfl (self_mem_nodes shelf)
  simp [hchildren]

theorem column_mem_cupboard : column ∈ nodes cupboard := by
  have hchildren : cupboard.children = [shelf, column] := rfl
  refine mem_nodes_of_child ?_ rfl (self_mem_nodes column)
  simp [hchildren]

theorem column_notMem_shelf : column ∉ nodes shelf := by
  have hids : (nodes shelf).map (fun n => n.field "id") =
      [.text "shelf", .text "left", .text "right"] := by cbv
  intro hmem
  have hid : Value.text "column" ∈ (nodes shelf).map fun n => n.field "id" :=
    List.mem_map_of_mem (f := fun n => n.field "id") hmem
  rw [hids] at hid
  simp at hid

theorem shelf_ne_cupboard : shelf ≠ cupboard := by
  intro heq
  have hids := congrArg (fun v => v.field "id") heq
  rw [show shelf.field "id" = .text "shelf" from rfl,
    show cupboard.field "id" = .text "cupboard" from rfl] at hids
  simp at hids

def furnished : Store := ⟨cupboard, .null, .text "right"⟩

def counted : IdSource := ⟨fun n => toString n, 0⟩

/-- The row goes behind the button, one way and the other. -/
theorem move_eq_remove_insert_shelf :
    Tree.find furnished.root (.text "shelf") = .ok (some shelf) ∧
      (furnished.move (.text "shelf") (.text "column") (.int 1)).1 = .ok true ∧
      (furnished.selected.isHashable → (furnished.remove (.text "shelf")).1 = .ok true) ∧
      ((furnished.remove (.text "shelf")).2.insert counted 0 (.text "column") shelf).result =
        .ok (some "shelf") ∧
      ((furnished.remove (.text "shelf")).2.insert counted 0 (.text "column") shelf).drawn = 0 ∧
      ((furnished.remove (.text "shelf")).2.insert counted 0 (.text "column") shelf).store.root =
        (furnished.move (.text "shelf") (.text "column") (.int 1)).2.root := by
  have hprops : ∀ m ∈ nodes shelf, (m.field "props").isObject :=
    fun m hm => wellFormed_cupboard.2 m (nodes_subset shelf_mem_cupboard hm)
  have hroot : cupboard.field "id" ≠ .text "shelf" := by
    rw [show cupboard.field "id" = .text "cupboard" from rfl]
    simp
  have hplace : column.children.countP (fun c => !(c.field "id").isTextOf "shelf") ≤ 1 := by decide
  exact move_eq_remove_insert wellFormed_cupboard.1 shelf_mem_cupboard rfl hroot hprops
    column_mem_cupboard rfl rfl column_notMem_shelf rfl (by exact_mod_cast hplace) counted 0

end PageBuilder.Store
