import PageBuilder.Proofs.Store.Reorder
import PageBuilder.Proofs.Store.Selection
import PageBuilder.Proofs.Tree.Lookup

/-!
What a removal does.

* `pruned`: the tree in which a node is taken out of the child list that it is in;
* `nodes_pruned`: its nodes are those before and those after the nodes that were cut off;
* `CutOut`: what is left of a tree, node by node, and what is found in it;
* `Store.remove_cuts`: a removal is made for every node but the root, and cuts just that node out.
-/

namespace PageBuilder.Tree

/-- The tree in which a node is taken out of whatever child list it is in. -/
def pruned (x : String) (root : Value) : Value := relist (fun _ items => without x items) root

/-- A node by itself, with one child taken out of its child list. -/
def outlineWithout (x : String) (v : Value) : Value × Option (List Value) :=
  (bare v, v.childList?.map fun items => (without x items).map fun c => c.field "id")

/-- What is left of a tree after a node was cut out of it. -/
structure CutOut (root n : Value) (x : String) (root' : Value) : Prop where
  /-- What was cut off stood side by side. The other nodes are left in their order, with all their
  fields; one of them has lost a child, and no child list is changed otherwise. -/
  block : ∃ before after, nodes root = before ++ nodes n ++ after ∧
    (nodes root').map outline = (before ++ after).map (outlineWithout x)
  gone : ∀ m ∈ nodes n, find root' (m.field "id") = .ok none
  kept : ∀ m ∈ nodes root, m.field "id" ∉ idsIn n →
    ∃ m', find root' (m.field "id") = .ok (some m') ∧ outline m' = outlineWithout x m
  parents : ∀ m ∈ nodes root, m.field "id" ∉ idsIn n →
    ∃ p p', findParent root (m.field "id") = .ok p ∧ findParent root' (m.field "id") = .ok p' ∧
      p'.map bare = p.map bare

/-! ## Nodes of the pruned tree -/

section Pruned

variable {x : String}

@[simp] theorem id_pruned (v : Value) : (pruned x v).field "id" = v.field "id" := id_relist _ v

theorem children_pruned {v c : Value} (hc : c ∈ v.children) :
    (pruned x v).children = (without x v.children).map (pruned x) := by
  have hsome : v.childList?.isSome := isSome_childList?_of_mem hc
  rw [pruned, relist_of_isSome hsome, children_editChildren (isObject_of_childList? hsome)]
  exact (map_without id_pruned v.children).symm

theorem outline_pruned (v : Value) : outline (pruned x v) = outlineWithout x v := by
  cases hlist : v.childList? with
  | none =>
    rw [pruned, relist_of_none hlist, outline, outlineWithout, hlist]
    rfl
  | some items =>
    have hsome : v.childList?.isSome := Option.isSome_iff_exists.mpr ⟨items, hlist⟩
    have hchildren : v.children = items := by rw [Value.children, hlist, Option.getD_some]
    have hids : (without x (items.map (pruned x))).map (fun c => c.field "id") =
        (without x items).map fun c => c.field "id" := by
      rw [← map_without id_pruned, List.map_map]
      exact List.map_congr_left fun c _ => id_pruned c
    rw [outline, outlineWithout, pruned, relist_of_isSome hsome, bare_editChildren,
      childList?_editChildren (isObject_of_childList? hsome), hchildren, hlist, Option.map_some,
      Option.map_some]
    exact congrArg (fun ids => (bare v, some ids)) hids

@[simp] theorem isObject_pruned {v : Value} : (pruned x v).isObject = v.isObject := by
  cases hlist : v.childList? with
  | none => rw [pruned, relist_of_none hlist]
  | some items =>
    rw [pruned, relist_of_isSome (Option.isSome_iff_exists.mpr ⟨items, hlist⟩),
      isObject_editChildren]

theorem bare_pruned (v : Value) : bare (pruned x v) = bare v := congrArg Prod.fst (outline_pruned v)

/-- Trees without the node are not changed. -/
theorem pruned_eq_self {v : Value} (h : ∀ m ∈ nodesOf v.children, m.field "id" ≠ .text x) :
    pruned x v = v := by
  refine relist_eq_self fun m hm => without_eq_self fun c hc hid => ?_
  have ho : c.isObject = true := by
    cases c with
    | object fields => rfl
    | _ => cases hid
  refine h c ?_ hid
  have hinner : ∀ w : Value, m ∈ nodes w → c ∈ nodes w := fun w hw =>
    nodes_subset hw (mem_nodes_of_child hc ho (self_mem_nodes c))
  rw [nodes_eq] at hm
  rcases List.mem_cons.mp hm with rfl | hm
  · exact mem_nodesOf.mpr ⟨c, hc, ho, self_mem_nodes c⟩
  · obtain ⟨w, hw, hwo, hmw⟩ := mem_nodesOf.mp hm
    exact mem_nodesOf.mpr ⟨w, hw, hwo, hinner w hmw⟩

/-- Child lists without the node are not changed either. -/
theorem pruned_beside {vs : List Value} (h : ∀ m ∈ nodesOf vs, m.field "id" ≠ .text x) :
    without x vs = vs ∧ vs.map (pruned x) = vs ∧ (nodesOf vs).map (pruned x) = nodesOf vs := by
  have hself : ∀ m ∈ nodesOf vs, pruned x m = m := by
    intro m hm
    refine pruned_eq_self fun d hd => h d ?_
    obtain ⟨v, hv, ho, hmv⟩ := mem_nodesOf.mp hm
    refine mem_nodesOf.mpr ⟨v, hv, ho, nodes_subset hmv ?_⟩
    rw [nodes_eq]
    exact List.mem_cons_of_mem _ hd
  refine ⟨without_eq_self fun c hc hid => ?_, (List.map_congr_left fun c hc => ?_).trans
    (List.map_id' _), (List.map_congr_left hself).trans (List.map_id' _)⟩
  · cases c with
    | object fields => exact h _ (mem_nodesOf.mpr ⟨_, hc, rfl, self_mem_nodes _⟩) hid
    | _ => cases hid
  · cases c with
    | object fields => exact hself _ (mem_nodesOf.mpr ⟨_, hc, rfl, self_mem_nodes _⟩)
    | _ => exact relist_of_none rfl

/-- Where the node is below a child, the other children stay as they are. -/
theorem nodes_pruned_split {v c n : Value} {i : Nat} (hc : v.children[i]? = some c)
    (ho : c.isObject) (hdistinct : ((nodes v).map fun m => m.field "id").Nodup)
    (hn : n ∈ nodes c) (hx : n.field "id" = .text x) :
    nodes (pruned x v) = (v :: nodesOf (v.children.take i)).map (pruned x) ++
      (nodesOf ((without x [c]).map (pruned x)) ++
        (nodesOf (v.children.drop (i + 1))).map (pruned x)) := by
  obtain ⟨-, -, hbefore, hafter⟩ := apart_of_distinct hc ho hdistinct hn
  rw [hx] at hbefore hafter
  obtain ⟨hfirst, hfirstMap, hfirstNodes⟩ := pruned_beside hbefore
  obtain ⟨hlast, hlastMap, hlastNodes⟩ := pruned_beside hafter
  have hchildren : without x v.children =
      v.children.take i ++ (without x [c] ++ v.children.drop (i + 1)) := by
    conv_lhs => rw [eq_take_cons_drop hc, ← List.singleton_append, without, List.filter_append,
      List.filter_append]
    exact congrArg₂ (· ++ ·) hfirst (congrArg₂ (· ++ ·) rfl hlast)
  rw [nodes_eq, children_pruned (List.mem_of_getElem? hc), hchildren, List.map_append,
    List.map_append, hfirstMap, hlastMap, nodesOf_append, nodesOf_append, List.map_cons,
    hfirstNodes, hlastNodes, List.cons_append]

/-- The nodes of the pruned tree are the nodes before and after those that were cut off. -/
theorem nodes_pruned {root p n : Value} {a : List Nat} {i : Nat} (hat : nodeAt? root a = some p)
    (hc : p.children[i]? = some n) (ho : n.isObject) (hx : n.field "id" = .text x)
    (hdistinct : ((nodes root).map fun m => m.field "id").Nodup) :
    ∃ before after, nodes root = before ++ nodes n ++ after ∧
      nodes (pruned x root) = (before ++ after).map (pruned x) := by
  have hn : n ∈ p.children := List.mem_of_getElem? hc
  induction a generalizing root with
  | nil =>
    cases hat
    have hself : without x [n] = [] :=
      List.filter_cons_of_neg (by simp [(Value.isTextOf_iff _ _).mpr hx])
    refine ⟨p :: nodesOf (p.children.take i), nodesOf (p.children.drop (i + 1)), ?_, ?_⟩
    · rw [nodes_split hc ho, List.cons_append, List.cons_append, List.append_assoc]
    · rw [nodes_pruned_split hc ho hdistinct (self_mem_nodes n) hx, hself, List.map_nil,
        nodesOf_nil, List.nil_append, List.map_append]
  | cons j rest ih =>
    obtain ⟨c, hj, hrest⟩ := nodeAt?_cons hat
    have hpo : p.isObject = true := isObject_of_mem_children hn
    have hco : c.isObject = true := isObject_of_nodeAt? hrest hpo
    have hpc : p ∈ nodes c := mem_nodes_of_nodeAt? hrest hpo
    have hnc : n ∈ nodes c := nodes_subset hpc (mem_nodes_of_child hn ho (self_mem_nodes n))
    have hbelow := (apart_of_distinct hj hco hdistinct hnc).1
    obtain ⟨before, after, hwhole, hpruned⟩ := ih hrest hbelow
    -- the child on the way down is above the node, and so another one
    have hother : c.field "id" ≠ .text x := by
      intro hid
      have hcn : c = n := List.inj_on_of_nodup_map hbelow (self_mem_nodes c) hnc (hid.trans hx.symm)
      exact notMem_nodes_of_child hn (hcn ▸ hpc)
    have hself : without x [c] = [c] :=
      List.filter_cons_of_pos (by simp [Value.isTextOf_eq_false hother])
    refine ⟨root :: nodesOf (root.children.take j) ++ before,
      after ++ nodesOf (root.children.drop (j + 1)), ?_, ?_⟩
    · rw [nodes_split hj hco, hwhole]
      simp only [List.cons_append, List.append_assoc]
    · rw [nodes_pruned_split hj hco hdistinct hnc hx, hself, List.map_singleton,
        nodesOf_singleton (isObject_pruned.trans hco), hpruned]
      simp only [List.map_append, List.append_assoc]

end Pruned

/-! ## Well-formed trees -/

section Cut

variable {root n : Value} {x : String} (h : WellFormed root) (hn : n ∈ nodes root)
  (hx : n.field "id" = .text x) (hne : n ≠ root)

include h hn hx hne

/-- A node other than the root is removed, and the pruned tree is left. -/
theorem WellFormed.remove_eq_pruned :
    WellFormed (pruned x root) ∧ (idsIn (pruned x root) ++ idsIn n).Nodup ∧
      (∃ before after, nodes root = before ++ nodes n ++ after ∧
        nodes (pruned x root) = (before ++ after).map (pruned x)) ∧
      ∃ removed, Tree.remove root (.text x) = .ok (some (pruned x root, removed)) := by
  have hroot : root.field "id" ≠ .text x := fun hid =>
    hne (h.eq_of_id_eq (self_mem_nodes root) hn (hx.trans hid.symm))
  obtain ⟨v, hl, rfl⟩ := h.locateInner_eq_some hn hx hroot
  obtain ⟨hplaced, -, p, -, -, habove, hchild⟩ := locateInner_eq hl
  have htree : Tree.detach root v = pruned x root := h.detach_eq_relist hl
  rw [← htree]
  refine ⟨h.detach habove hchild hplaced.isObject, h.ids_detach hl, ?_, h.remove_eq_some hl⟩
  rw [htree]
  exact nodes_pruned habove hchild hplaced.isObject hx h.distinct

/-- What was not cut off is a node of the pruned tree. -/
theorem WellFormed.pruned_mem_nodes {m : Value} (hm : m ∈ nodes root)
    (hout : m.field "id" ∉ idsIn n) : pruned x m ∈ nodes (pruned x root) := by
  obtain ⟨-, -, ⟨before, after, hwhole, hpruned⟩, -⟩ := h.remove_eq_pruned hn hx hne
  have hmn : m ∉ nodes n := fun hmem => hout (List.mem_map_of_mem hmem)
  rw [hwhole, List.mem_append, List.mem_append] at hm
  rw [hpruned]
  refine List.mem_map_of_mem (List.mem_append.mpr ?_)
  exact hm.imp_left fun hm => hm.resolve_right hmn

omit hx hne in
/-- The parent of what was not cut off was not cut off either: its children would have been, too. -/
theorem WellFormed.parent_notMem_idsIn {p m : Value} (hp : p ∈ nodes root) (hmp : m ∈ p.children)
    (hout : m.field "id" ∉ idsIn n) : p.field "id" ∉ idsIn n := by
  intro hmem
  obtain ⟨w, hw, hid⟩ := List.mem_map.mp hmem
  obtain rfl := h.eq_of_id_eq hp (nodes_subset hn hw) hid
  have ho : m.isObject = true := (h.sound w hp).isObject_child hmp
  exact hout (List.mem_map_of_mem (nodes_subset hw (mem_nodes_of_child hmp ho (self_mem_nodes m))))

/-- What was not cut off keeps its parent. -/
theorem WellFormed.findParent_pruned {m : Value} (hm : m ∈ nodes root)
    (hout : m.field "id" ∉ idsIn n) :
    ∃ p p', findParent root (m.field "id") = .ok p ∧
      findParent (pruned x root) (m.field "id") = .ok p' ∧ p'.map bare = p.map bare := by
  have hrest : WellFormed (pruned x root) := (h.remove_eq_pruned hn hx hne).1
  by_cases hmr : m = root
  · subst hmr
    have hroot := hrest.findParent_rootId
    rw [id_pruned] at hroot
    exact ⟨none, none, h.findParent_rootId, hroot, rfl⟩
  · obtain ⟨p, hp, hmp⟩ := h.exists_parent hm hmr
    obtain ⟨y, hy, -⟩ := (h.sound m hm).named
    have hpout := h.parent_notMem_idsIn hn hp hmp hout
    have hmx : m.field "id" ≠ .text x := by
      intro hid
      exact hout (hid.trans hx.symm ▸ List.mem_map_of_mem (self_mem_nodes n))
    have hstays : m ∈ without x p.children :=
      List.mem_filter.mpr ⟨hmp, by simp [Value.isTextOf_eq_false hmx]⟩
    have hchild : pruned x m ∈ (pruned x p).children := by
      rw [children_pruned hmp]
      exact List.mem_map_of_mem hstays
    have hp' := h.pruned_mem_nodes hn hx hne hp hpout
    rw [hy]
    refine ⟨some p, some (pruned x p), h.findParent_eq_some hp hmp hy,
      hrest.findParent_eq_some hp' hchild ((id_pruned m).trans hy), ?_⟩
    rw [Option.map_some, Option.map_some, bare_pruned]

theorem WellFormed.cutOut_pruned : CutOut root n x (pruned x root) := by
  obtain ⟨hrest, hids, ⟨before, after, hwhole, hpruned⟩, -⟩ := h.remove_eq_pruned hn hx hne
  refine ⟨⟨before, after, hwhole, ?_⟩, fun m hm => ?_, fun m hm hout => ?_, fun m hm hout =>
    h.findParent_pruned hn hx hne hm hout⟩
  · rw [hpruned, List.map_map]
    exact List.map_congr_left fun m _ => outline_pruned m
  · refine hrest.find_eq_none fun w hw => ?_
    exact (List.nodup_append.mp hids).2.2 _ (List.mem_map_of_mem hw) _ (List.mem_map_of_mem hm)
  · obtain ⟨y, hy, -⟩ := (h.sound m hm).named
    have hleft := h.pruned_mem_nodes hn hx hne hm hout
    rw [hy]
    exact ⟨_, hrest.find_eq_some hleft ((id_pruned m).trans hy), outline_pruned m⟩

end Cut

/-- The root is not removed, and neither is what is not in the tree. -/
theorem WellFormed.remove_eq_none {root id : Value} (h : WellFormed root)
    (hid : ∀ n ∈ nodes root, n.field "id" = id → n = root) :
    Tree.remove root id = .ok none := by
  have hnone : locateInner root id = .ok none := by
    obtain ⟨found, hl⟩ := h.exists_locateInner id
    cases found with
    | none => exact hl
    | some v =>
      obtain ⟨hplaced, hsame, -⟩ := locateInner_eq hl
      obtain ⟨y, hy, -⟩ := (h.sound _ hplaced.mem_nodes).named
      rw [Visit.id, hy, Value.text_same_iff] at hsame
      subst hsame
      have hroot := hid _ hplaced.mem_nodes hy
      exact absurd (hroot ▸ hy) (h.rootId_ne_of_locateInner hl)
  rw [Tree.remove, hnone]
  rfl

end PageBuilder.Tree

namespace PageBuilder.Store

open PageBuilder.Tree

/-- A node is removed just if it is in the tree and not its root. It is cut out with all that is
below it, and nothing else is changed. -/
theorem remove_cuts {s : Store} (h : WellFormed s.root) :
    (∀ id, s.selected.isHashable = true → ((s.remove id).1 = .ok true ↔
      ∃ n ∈ nodes s.root, n.field "id" = id ∧ n ≠ s.root)) ∧
    (∀ n ∈ nodes s.root, n ≠ s.root → ∃ x, n.field "id" = .text x ∧
      CutOut s.root n x (s.remove (.text x)).2.root) ∧
    (∀ id, (∀ n ∈ nodes s.root, n.field "id" = id → n = s.root) →
      s.remove id = (.ok false, s)) := by
  have hrefused : ∀ id, (∀ n ∈ nodes s.root, n.field "id" = id → n = s.root) →
      s.remove id = (.ok false, s) := by
    intro id hid
    rw [Store.remove, h.remove_eq_none hid]
  refine ⟨fun id hselected => ⟨fun hdone => ?_, ?_⟩, fun n hn hne => ?_, hrefused⟩
  · by_contra hno
    rw [hrefused id fun n hn hid => by_contra fun hne => hno ⟨n, hn, hid, hne⟩] at hdone
    cases hdone
  · rintro ⟨n, hn, rfl, hne⟩
    obtain ⟨x, hx, -⟩ := (h.sound n hn).named
    obtain ⟨-, -, -, removed, hremove⟩ := h.remove_eq_pruned hn hx hne
    rw [hx, Store.remove, hremove]
    exact congrArg Prod.fst (deselect_eq (s := s.withRoot (pruned x s.root)) hselected removed)
  · obtain ⟨x, hx, -⟩ := (h.sound n hn).named
    obtain ⟨-, -, -, removed, hremove⟩ := h.remove_eq_pruned hn hx hne
    have hroot : (s.remove (.text x)).2.root = pruned x s.root := by
      rw [Store.remove, hremove]
      exact deselect_root ..
    refine ⟨x, hx, ?_⟩
    rw [hroot]
    exact h.cutOut_pruned hn hx hne

/-- The row is cut out with its two texts; the page itself stays. -/
theorem remove_cuts_shelf :
    WellFormed furnished.root ∧ furnished.selected.isHashable = true ∧
      (furnished.remove (.text "shelf")).1 = .ok true ∧
      CutOut cupboard shelf "shelf" (furnished.remove (.text "shelf")).2.root ∧
      furnished.remove (.text "cupboard") = (.ok false, furnished) := by
  have hsound : WellFormed furnished.root := wellFormed_cupboard.1
  obtain ⟨hiff, hcuts, hrefused⟩ := remove_cuts hsound (s := furnished)
  obtain ⟨x, hx, hcut⟩ := hcuts shelf shelf_mem_cupboard shelf_ne_cupboard
  obtain rfl : "shelf" = x := by
    rw [show shelf.field "id" = .text "shelf" from rfl] at hx
    injection hx with hx
    injection hx
  refine ⟨hsound, rfl, ?_, hcut, ?_⟩
  · exact (hiff (.text "shelf") rfl).mpr ⟨shelf, shelf_mem_cupboard, rfl, shelf_ne_cupboard⟩
  · refine hrefused (.text "cupboard") fun n hn hid => ?_
    exact hsound.eq_of_id_eq (self_mem_nodes cupboard) hn (hid.trans rfl)

end PageBuilder.Store
