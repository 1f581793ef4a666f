import Mathlib.Data.List.InsertIdx
import PageBuilder.Proofs.Tree.Edits

/-!
Revisions: changes of single nodes that leave alone what the structure of a tree is made of.

* `mapNodes`: the tree with all nodes revised;
* `mapNodes_editChildren`, `mapNodes_editAt`: a change of a child list is the same change after a
  revision;
* `locate_mapNodes`, `locateInner_mapNodes`: the nodes of a revised tree are found where they were;
* `move_mapNodes`, `reorder_mapNodes`, `remove_mapNodes`: so edits of the structure and revisions
  can change places.
-/

namespace PageBuilder.Tree

/-- A change of nodes that keeps identifiers, child lists and what is a container, and that does not
depend on the children. -/
structure Revision (f : Value → Value) : Prop where
  other : ∀ v, v.isObject = false → f v = v
  isObject : ∀ v, (f v).isObject = v.isObject
  id : ∀ v, (f v).field "id" = v.field "id"
  isContainer : ∀ v, (f v).isContainer = v.isContainer
  childList? : ∀ v, (f v).childList? = v.childList?
  editChildren : ∀ g v, v.childList?.isSome → f (editChildren g v) = editChildren g (f v)

/-- The tree with all nodes revised, from the leaves up. -/
def mapNodes (f : Value → Value) (v : Value) : Value :=
  match v.childList? with
  | none => f v
  | some _ => f (editChildren (fun _ => v.children.attach.map fun c => mapNodes f c.val) v)
termination_by sizeOf v
decreasing_by exact Value.sizeOf_lt_of_mem_children c.property

theorem mapNodes_of_none {f : Value → Value} {v : Value} (h : v.childList? = none) :
    mapNodes f v = f v := by
  rw [mapNodes, h]

theorem mapNodes_of_isSome {f : Value → Value} {v : Value} (h : v.childList?.isSome) :
    mapNodes f v = f (editChildren (fun _ => v.children.map (mapNodes f)) v) := by
  obtain ⟨items, hitems⟩ := Option.isSome_iff_exists.mp h
  rw [mapNodes, hitems]
  simp

/-! ## Child lists -/

theorem swap_map (g : Value → Value) (i j : Nat) (items : List Value) :
    swap i j (items.map g) = (swap i j items).map g := by
  unfold swap
  rw [List.getElem?_map, List.getElem?_map]
  cases items[i]? with
  | none => rfl
  | some a =>
    cases items[j]? with
    | none => rfl
    | some b => simp

theorem insertAt_map (g : Value → Value) (place : Int) (item : Value) (items : List Value) :
    insertAt place (g item) (items.map g) = (insertAt place item items).map g := by
  unfold insertAt
  rw [List.length_map, List.map_insertIdx]

section Revisions

variable {f : Value → Value} (hf : Revision f)

include hf

/-! ## What is read of a revised tree -/

/-- What does not look at children is read of a revised tree as of its revised root. -/
theorem read_mapNodes {α : Type} {g : Value → α} (hg : ∀ h v, g (editChildren h v) = g v)
    (v : Value) : g (mapNodes f v) = g (f v) := by
  cases h : v.childList? with
  | none => rw [mapNodes_of_none h]
  | some items =>
    have hsome : v.childList?.isSome := Option.isSome_iff_exists.mpr ⟨items, h⟩
    rw [mapNodes_of_isSome hsome, hf.editChildren _ v hsome, hg]

@[simp] theorem isObject_mapNodes (v : Value) : (mapNodes f v).isObject = v.isObject :=
  (read_mapNodes hf isObject_editChildren v).trans (hf.isObject v)

@[simp] theorem isContainer_mapNodes (v : Value) : (mapNodes f v).isContainer = v.isContainer :=
  (read_mapNodes hf isContainer_editChildren v).trans (hf.isContainer v)

theorem id_mapNodes (v : Value) : (mapNodes f v).field "id" = v.field "id" :=
  (read_mapNodes (g := fun n => n.field "id") hf (fun h n => field_editChildren (by decide) h n)
    v).trans (hf.id v)

theorem childList?_mapNodes (v : Value) :
    (mapNodes f v).childList? = v.childList?.map (List.map (mapNodes f)) := by
  cases h : v.childList? with
  | none =>
    rw [mapNodes_of_none h, hf.childList?, h]
    rfl
  | some items =>
    have hsome : v.childList?.isSome := Option.isSome_iff_exists.mpr ⟨items, h⟩
    rw [mapNodes_of_isSome hsome, hf.childList?,
      childList?_editChildren (isObject_of_childList? hsome), Value.children, h]
    rfl

theorem children_mapNodes (v : Value) :
    (mapNodes f v).children = v.children.map (mapNodes f) := by
  rw [Value.children, childList?_mapNodes hf, Value.children]
  cases v.childList? <;> rfl

theorem nodesOf_map_mapNodes {vs : List Value}
    (h : ∀ c ∈ vs, nodes (mapNodes f c) = (nodes c).map (mapNodes f)) :
    nodesOf (vs.map (mapNodes f)) = (nodesOf vs).map (mapNodes f) := by
  induction vs with
  | nil => rw [List.map_nil, nodesOf_nil, List.map_nil]
  | cons c rest ih =>
    rw [List.forall_mem_cons] at h
    rw [List.map_cons, nodesOf, nodesOf, isObject_mapNodes hf, ih h.2]
    split
    · rw [List.map_append, h.1]
    · rfl

/-- The nodes of a revised tree are the revised nodes. -/
theorem nodes_mapNodes (v : Value) : nodes (mapNodes f v) = (nodes v).map (mapNodes f) := by
  induction v using Value.children_induction with
  | step v ih =>
    rw [nodes_eq, children_mapNodes hf, nodesOf_map_mapNodes hf ih, nodes_eq, List.map_cons]

/-! ## Changes of children -/

/-- A change of the children of a node, and what it is for the revised ones. -/
theorem mapNodes_editChildren {g g' : List Value → List Value} {v : Value}
    (h : v.childList?.isSome)
    (hg : (g v.children).map (mapNodes f) = g' (v.children.map (mapNodes f))) :
    mapNodes f (editChildren g v) = editChildren g' (mapNodes f v) := by
  have hedited := isSome_childList?_editChildren h g
  have hconst := isSome_childList?_editChildren h fun _ => v.children.map (mapNodes f)
  rw [mapNodes_of_isSome hedited, children_editChildren (isObject_of_childList? h),
    editChildren_editChildren, hg, mapNodes_of_isSome h, ← hf.editChildren _ _ hconst,
    editChildren_editChildren]

theorem mapNodes_editAt {g g' : Value → Value} {root n : Value} {a : List Nat}
    (h : nodeAt? root a = some n) (hg : mapNodes f (g n) = g' (mapNodes f n)) :
    mapNodes f (editAt a g root) = editAt a g' (mapNodes f root) := by
  induction a generalizing root with
  | nil =>
    cases h
    exact hg
  | cons i rest ih =>
    obtain ⟨c, hc, hrest⟩ := nodeAt?_cons h
    refine mapNodes_editChildren hf (isSome_childList?_of_mem (List.mem_of_getElem? hc)) ?_
    have hmapped : (root.children.map (mapNodes f))[i]? = some (mapNodes f c) := by
      rw [List.getElem?_map, hc, Option.map_some]
    rw [modify_eq_take_cons_drop hc, modify_eq_take_cons_drop hmapped, List.map_append,
      List.map_cons, ih hrest, List.map_take, List.map_drop]

/-! ## Walks -/

/-- The visit of the revised node. -/
def Visit.mapNodes (f : Value → Value) (v : Visit) : Visit :=
  ⟨Tree.mapNodes f v.node, v.parent.map (Tree.mapNodes f), v.index, v.address⟩

theorem below_mapNodes (v : Visit) (index : Nat) (vs : List Value) :
    (v.mapNodes f).below index (vs.map (mapNodes f)) =
      (v.below index vs).map (Visit.mapNodes f) := by
  induction vs generalizing index with
  | nil => rfl
  | cons c rest ih =>
    rw [List.map_cons, Visit.below, Visit.below, isObject_mapNodes hf, ih]
    split
    · rfl
    · rfl

theorem walkFrom_mapNodes (stack : List Visit) :
    walkFrom (stack.map (Visit.mapNodes f)) = (walkFrom stack).map (Visit.mapNodes f) := by
  induction stack using walkFrom.induct with
  | case1 => rw [List.map_nil, walkFrom, List.map_nil]
  | case2 v rest ih =>
    have hbelow : (v.mapNodes f).below 0 (v.mapNodes f).node.children =
        (v.below 0 v.node.children).map (Visit.mapNodes f) := by
      rw [← below_mapNodes hf, ← children_mapNodes hf]
      rfl
    rw [List.map_cons, walkFrom, hbelow, ← List.map_append, ih, walkFrom, List.map_cons]

theorem walk_mapNodes (root : Value) :
    walk (mapNodes f root) = (walk root).map (List.map (Visit.mapNodes f)) := by
  unfold walk
  rw [isObject_mapNodes hf]
  split
  · exact congrArg Except.ok (walkFrom_mapNodes hf [.start root])
  · rfl

theorem id_visit_mapNodes (v : Visit) : (v.mapNodes f).id = v.id := id_mapNodes hf v.node

theorem ids_mapNodes (root : Value) : ids (mapNodes f root) = ids root := by
  unfold ids
  rw [walk_mapNodes hf]
  cases walk root with
  | error e => rfl
  | ok visits =>
    have hids : (visits.map (Visit.mapNodes f)).map Visit.id = visits.map Visit.id := by
      rw [List.map_map]
      exact List.map_congr_left fun v _ => id_visit_mapNodes hf v
    exact congrArg Except.ok hids

theorem locate_mapNodes (root id : Value) :
    locate (mapNodes f root) id = (locate root id).map (Option.map (Visit.mapNodes f)) := by
  unfold locate
  rw [walk_mapNodes hf]
  cases walk root with
  | error e => rfl
  | ok visits =>
    have hfind : (visits.map (Visit.mapNodes f)).find? (fun v => v.id.same id) =
        (visits.find? fun v => v.id.same id).map (Visit.mapNodes f) := by
      rw [List.find?_map]
      simp only [Function.comp_def, id_visit_mapNodes hf]
    exact congrArg Except.ok hfind

theorem rootId_mapNodes (root : Value) : rootId (mapNodes f root) = rootId root := by
  unfold rootId
  rw [isObject_mapNodes hf, id_mapNodes hf]

theorem locateInner_mapNodes (root id : Value) :
    locateInner (mapNodes f root) id =
      (locateInner root id).map (Option.map (Visit.mapNodes f)) := by
  unfold locateInner
  rw [rootId_mapNodes hf, locate_mapNodes hf, bind_map]
  refine bind_congr fun r _ => ?_
  split
  · rfl
  · rw [map_bind, bind_map]
    refine bind_congr fun found _ => congrArg Except.ok ?_
    rw [Option.filter_map]
    simp only [Function.comp_def, Visit.mapNodes, Option.isSome_map]

/-! ## Edits of the structure -/

section Edits

variable {root p : Value} {v : Visit}

theorem detach_mapNodes (habove : nodeAt? root v.above = some p)
    (hchild : p.children[v.index]? = some v.node) :
    detach (mapNodes f root) (v.mapNodes f) = mapNodes f (detach root v) := by
  have hsome := isSome_childList?_of_mem (List.mem_of_getElem? hchild)
  refine (mapNodes_editAt hf habove (mapNodes_editChildren hf hsome ?_)).symm
  exact (List.eraseIdx_map (mapNodes f) p.children v.index).symm

theorem remove_mapNodes (root id : Value) :
    remove (mapNodes f root) id =
      (remove root id).map (Option.map fun removed => (mapNodes f removed.1, removed.2)) := by
  unfold remove
  rw [locateInner_mapNodes hf, map_bind, bind_map]
  refine bind_congr fun found hfound => ?_
  cases found with
  | none => rfl
  | some v =>
    obtain ⟨-, -, p, -, -, habove, hchild⟩ := locateInner_eq hfound
    simp only [Option.map_some]
    rw [show (v.mapNodes f).node = mapNodes f v.node from rfl, ids_mapNodes hf, bind_map,
      detach_mapNodes hf habove hchild]
    refine bind_congr fun removed _ => ?_
    split
    · rfl
    · rfl

theorem reorder_mapNodes (root id direction : Value) :
    reorder (mapNodes f root) id direction =
      (reorder root id direction).map (Option.map (mapNodes f)) := by
  unfold reorder
  split
  · rfl
  · rename_i d hd
    rw [locateInner_mapNodes hf, map_bind, bind_map]
    refine bind_congr fun found hfound => ?_
    cases found with
    | none => rfl
    | some v =>
      obtain ⟨-, -, p, hp, -, habove, hchild⟩ := locateInner_eq hfound
      have hsome := isSome_childList?_of_mem (List.mem_of_getElem? hchild)
      have hswap (place : Nat) :
          editAt v.above (editChildren (swap v.index place)) (mapNodes f root) =
            mapNodes f (editAt v.above (editChildren (swap v.index place)) root) :=
        (mapNodes_editAt hf habove (mapNodes_editChildren hf hsome (swap_map _ _ _ _).symm)).symm
      have hlength : (((v.mapNodes f).parent.map Value.children).getD []).length =
          ((v.parent.map Value.children).getD []).length := by
        simp [Visit.mapNodes, hp, children_mapNodes hf]
      simp only [Option.map_some]
      rw [hlength]
      refine congrArg Except.ok ?_
      show Option.map _ (d.from? v.index _) = Option.map _ (Option.map _ (d.from? v.index _))
      cases d.from? v.index ((v.parent.map Value.children).getD []).length with
      | none => rfl
      | some place => exact congrArg some (hswap place)

theorem paste_mapNodes {target : Visit} (h : WellFormed root) (ht : target.Placed root)
    (hc : target.node.isContainer = true) (place : Int) (item : Value) :
    editAt target.address (editChildren (insertAt place (mapNodes f item))) (mapNodes f root) =
      mapNodes f (editAt target.address (editChildren (insertAt place item)) root) := by
  obtain ⟨items, hitems, -⟩ := (h.sound _ ht.mem_nodes).container hc
  have hsome : target.node.childList?.isSome := Option.isSome_iff_exists.mpr ⟨items, hitems⟩
  have hinsert := (insertAt_map (mapNodes f) place item target.node.children).symm
  exact (mapNodes_editAt hf ht.node (mapNodes_editChildren hf hsome hinsert)).symm

/-- Whether there is a list to move into is seen from the kind of the target in a well-formed tree
only. -/
theorem move_mapNodes (h : WellFormed root) (id targetId index : Value) :
    move (mapNodes f root) id targetId index =
      (move root id targetId index).map (Option.map (mapNodes f)) := by
  unfold move
  rw [rootId_mapNodes hf, bind_map]
  refine bind_congr fun r _ => ?_
  split
  · rfl
  · rw [locateInner_mapNodes hf, map_bind, bind_map]
    refine bind_congr fun found hfound => ?_
    cases found with
    | none => rfl
    | some v =>
      obtain ⟨hplaced, -, p, hp, -, habove, hchild⟩ := locateInner_eq hfound
      have hrest := h.detach habove hchild hplaced.isObject
      simp only [Option.map_some]
      rw [detach_mapNodes hf habove hchild, locate_mapNodes hf, map_bind, bind_map]
      refine bind_congr fun found hfound => ?_
      cases found with
      | none => rfl
      | some target =>
        simp only [Option.map_some]
        rw [show (target.mapNodes f).node = mapNodes f target.node from rfl,
          isContainer_mapNodes hf]
        split
        · rename_i hc
          rw [bind_map]
          exact bind_congr fun place _ => congrArg (fun t => Except.ok (some t))
            (paste_mapNodes hf hrest (locate_eq hfound).1 hc place v.node)
        · rfl

end Edits

end Revisions

/-- Two revisions one after the other. -/
theorem mapNodes_mapNodes (f : Value → Value) {g : Value → Value} (hg : Revision g) (v : Value) :
    mapNodes f (mapNodes g v) = mapNodes (fun n => f (g n)) v := by
  induction v using Value.children_induction with
  | step v ih =>
    cases h : v.childList? with
    | none =>
      have hnone : (g v).childList? = none := (hg.childList? v).trans h
      rw [mapNodes_of_none h, mapNodes_of_none hnone, mapNodes_of_none h]
    | some items =>
      have hsome : v.childList?.isSome := Option.isSome_iff_exists.mpr ⟨items, h⟩
      have hrevised : (mapNodes g v).childList?.isSome := by
        rw [childList?_mapNodes hg, h]
        rfl
      have hconst := isSome_childList?_editChildren hsome fun _ => v.children.map (mapNodes g)
      have hchildren : (v.children.map (mapNodes g)).map (mapNodes f) =
          v.children.map (mapNodes fun n => f (g n)) := by
        rw [List.map_map]
        exact List.map_congr_left ih
      rw [mapNodes_of_isSome hrevised, children_mapNodes hg, hchildren, mapNodes_of_isSome hsome,
        ← hg.editChildren _ _ hconst, editChildren_editChildren, mapNodes_of_isSome hsome]

end PageBuilder.Tree
