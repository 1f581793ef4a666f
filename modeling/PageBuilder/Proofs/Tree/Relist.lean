import PageBuilder.Proofs.Tree.Distinct

/-!
Trees in which child lists are changed and nothing else.

* `relist`: every child list is changed, as is said for the identifier of its node;
* `relist_relist`: two changes one after the other;
* `relist_eq_editAt`: a change that shows in one child list only is an edit at an address;
* `WellFormed.relist_at`: what is done to the child list of one node;
* `WellFormed.detach_eq_relist`: a cut takes a node out of whatever child list it is in.
-/

namespace PageBuilder.Tree

/-- The tree with every child list changed, from the leaves up: `f` is given the identifier of a
node and its child list. What a node has besides stays, and so do nodes without a child list. -/
def relist (f : Value → List Value → List Value) (v : Value) : Value :=
  match v.childList? with
  | none => v
  | some _ =>
    editChildren (fun _ => f (v.field "id") (v.children.attach.map fun c => relist f c.val)) v
termination_by sizeOf v
decreasing_by exact Value.sizeOf_lt_of_mem_children c.property

/-- The children that are not named by a text. -/
def without (x : String) (items : List Value) : List Value :=
  items.filter fun c => !(c.field "id").isTextOf x

section Relist

variable {f : Value → List Value → List Value} {v : Value}

theorem relist_of_none (h : v.childList? = none) : relist f v = v := by
  rw [relist, h]

theorem relist_of_isSome (h : v.childList?.isSome) :
    relist f v = editChildren (fun items => f (v.field "id") (items.map (relist f))) v := by
  obtain ⟨items, hitems⟩ := Option.isSome_iff_exists.mp h
  rw [relist, hitems]
  exact editChildren_congr (by simp)

@[simp] theorem id_relist (f : Value → List Value → List Value) (v : Value) :
    (relist f v).field "id" = v.field "id" := by
  cases h : v.childList? with
  | none => rw [relist_of_none h]
  | some items => rw [relist_of_isSome (by rw [h]; rfl), field_editChildren (by decide)]

/-- Two changes one after the other, the first of which does not look below the children. -/
theorem relist_relist {g : Value → List Value → List Value}
    (h : ∀ id items, (f id items).map (relist g) = f id (items.map (relist g))) (v : Value) :
    relist g (relist f v) = relist (fun id items => g id (f id items)) v := by
  induction v using Value.children_induction with
  | step v ih =>
    cases hlist : v.childList? with
    | none => rw [relist_of_none hlist, relist_of_none hlist, relist_of_none hlist]
    | some items =>
      have hsome : v.childList?.isSome := Option.isSome_iff_exists.mpr ⟨items, hlist⟩
      have hboth : (v.children.map (relist f)).map (relist g) =
          v.children.map (relist fun id items => g id (f id items)) := by
        rw [List.map_map]
        exact List.map_congr_left ih
      rw [relist_of_isSome hsome, relist_of_isSome (isSome_childList?_editChildren hsome _),
        field_editChildren (by decide), editChildren_editChildren, relist_of_isSome hsome]
      refine editChildren_congr ?_
      rw [h, hboth]

/-! ## Changes that show in one child list -/

/-- A change that leaves all child lists alone changes nothing. -/
theorem relist_eq_self (h : ∀ n ∈ nodes v, f (n.field "id") n.children = n.children) :
    relist f v = v := by
  induction v using Value.children_induction with
  | step v ih =>
    cases hlist : v.childList? with
    | none => exact relist_of_none hlist
    | some items =>
      have hsome : v.childList?.isSome := Option.isSome_iff_exists.mpr ⟨items, hlist⟩
      have hchild : ∀ c ∈ v.children, relist f c = c := by
        intro c hc
        cases ho : c.isObject with
        | true => exact ih c hc fun n hn => h n (mem_nodes_of_child hc ho hn)
        | false =>
          cases c with
          | object fields => cases ho
          | _ => exact relist_of_none rfl
      have hchildren : v.children.map (relist f) = v.children :=
        (List.map_congr_left hchild).trans (List.map_id' _)
      have hself := h v (self_mem_nodes v)
      rw [relist_of_isSome hsome]
      conv_rhs => rw [← editChildren_self hsome]
      exact editChildren_congr (by rw [hchildren, hself])

theorem map_relist_eq_self {vs : List Value}
    (h : ∀ n ∈ nodesOf vs, f (n.field "id") n.children = n.children) :
    vs.map (relist f) = vs := by
  refine (List.map_congr_left fun c hc => ?_).trans (List.map_id' _)
  cases ho : c.isObject with
  | true => exact relist_eq_self fun n hn => h n (mem_nodesOf.mpr ⟨c, hc, ho, hn⟩)
  | false =>
    cases c with
    | object fields => cases ho
    | _ => exact relist_of_none rfl

/-- A change that shows in the child list of one node only is an edit at its address. -/
theorem relist_eq_editAt {g : List Value → List Value} {root n : Value} {a : List Nat}
    (hat : nodeAt? root a = some n) (hsome : n.childList?.isSome)
    (hdistinct : ((nodes root).map fun m => m.field "id").Nodup)
    (hn : f (n.field "id") n.children = g n.children)
    (hothers : ∀ m ∈ nodes root, m.field "id" ≠ n.field "id" → ∀ items : List Value,
      (items.map fun c => c.field "id") = (m.children.map fun c => c.field "id") →
        f (m.field "id") items = items) :
    relist f root = editAt a (editChildren g) root := by
  have hself : ∀ {m : Value}, (m.field "id" ≠ n.field "id" → ∀ items : List Value,
      (items.map fun c => c.field "id") = (m.children.map fun c => c.field "id") →
        f (m.field "id") items = items) → m.field "id" ≠ n.field "id" →
      f (m.field "id") m.children = m.children := fun h hne => h hne _ rfl
  induction a generalizing root with
  | nil =>
    cases hat
    rw [nodes_eq, List.map_cons, List.nodup_cons] at hdistinct
    rw [nodes_eq, List.forall_mem_cons] at hothers
    have hchildren : n.children.map (relist f) = n.children := by
      refine map_relist_eq_self fun m hm => hself (hothers.2 m hm) fun hid => ?_
      exact hdistinct.1 (hid ▸ List.mem_map_of_mem hm)
    rw [relist_of_isSome hsome, editAt]
    exact editChildren_congr (by rw [hchildren, hn])
  | cons i rest ih =>
    obtain ⟨c, hc, hrest⟩ := nodeAt?_cons hat
    have hmem : c ∈ root.children := List.mem_of_getElem? hc
    have ho : n.isObject = true := isObject_of_childList? hsome
    have hco : c.isObject = true := isObject_of_nodeAt? hrest ho
    obtain ⟨hbelow, hrootId, hbeforeId, hafterId⟩ :=
      apart_of_distinct hc hco hdistinct (mem_nodes_of_nodeAt? hrest ho)
    obtain ⟨hroot, hbefore, hchild, hafter⟩ := forall_mem_nodes_split hc hco hothers
    have hbeside : ∀ vs : List Value, (∀ m ∈ nodesOf vs, f (m.field "id") m.children = m.children) →
        vs.map (relist f) = vs := fun vs => map_relist_eq_self
    -- the child on the way is changed below, and the others have other identifiers
    have hchildren : root.children.map (relist f) =
        root.children.modify i (editAt rest (editChildren g)) := by
      conv_lhs => rw [eq_take_cons_drop hc]
      rw [modify_eq_take_cons_drop hc, List.map_append, List.map_cons, ih hrest hbelow hchild,
        hbeside _ fun m hm => hself (hbefore m hm) (hbeforeId m hm),
        hbeside _ fun m hm => hself (hafter m hm) (hafterId m hm)]
    rw [relist_of_isSome (isSome_childList?_of_mem hmem), editAt]
    refine editChildren_congr ?_
    rw [hroot hrootId _ (by simp), hchildren]

end Relist

/-! ## Well-formed trees -/

section WellFormed

variable {root : Value} (h : WellFormed root)

include h

/-- What is done to the child list of one node is done at its address. -/
theorem WellFormed.relist_at {n : Value} {a : List Nat} {y : String} (hat : nodeAt? root a = some n)
    (hn : n ∈ nodes root) (hid : n.field "id" = .text y) (hc : n.isContainer = true)
    (g : List Value → List Value) :
    relist (fun id items => if id.isTextOf y then g items else items) root =
      editAt a (Tree.editChildren g) root := by
  obtain ⟨items, hitems, -⟩ := (h.sound n hn).container hc
  have hsome : n.childList?.isSome := Option.isSome_iff_exists.mpr ⟨items, hitems⟩
  refine relist_eq_editAt hat hsome h.distinct ?_ fun m _ hne items _ => ?_
  · rw [hid, if_pos ((Value.isTextOf_iff _ _).mpr rfl)]
  · rw [hid] at hne
    rw [Value.isTextOf_eq_false hne, if_neg Bool.false_ne_true]

variable {p c : Value} {x : String}

/-- A child is taken out of the list that it is in. -/
theorem WellFormed.without_eq_eraseIdx {i : Nat} (hp : p ∈ nodes root)
    (hc : p.children[i]? = some c) (hx : c.field "id" = .text x) :
    without x p.children = p.children.eraseIdx i := by
  have hothers := h.ne_of_mem_eraseIdx hp hc
  rw [List.eraseIdx_eq_take_drop_succ] at hothers ⊢
  have hself : (c.field "id").isTextOf x = true := (Value.isTextOf_iff _ _).mpr hx
  conv_lhs => rw [eq_take_cons_drop hc]
  rw [without, List.filter_append, List.filter_cons_of_neg (by simp [hself]), ← List.filter_append,
    List.filter_eq_self]
  intro d hd
  rw [Value.isTextOf_eq_false (hx ▸ hothers d hd)]
  rfl

omit h in
theorem without_eq_self {items : List Value} (hitems : ∀ d ∈ items, d.field "id" ≠ .text x) :
    without x items = items := by
  rw [without, List.filter_eq_self]
  intro d hd
  rw [Value.isTextOf_eq_false (hitems d hd)]
  rfl

omit h in
/-- Whether a child is taken out is seen from its identifier. -/
theorem map_without {r : Value → Value} (hr : ∀ v, (r v).field "id" = v.field "id")
    (items : List Value) : (without x items).map r = without x (items.map r) := by
  rw [without, without, List.filter_map]
  simp only [Function.comp_def, hr]

/-- Nothing is taken out of a list that has the identifiers of the children of another node. The
list itself may be one that was changed below. -/
theorem WellFormed.without_of_other_parent {m : Value} {items : List Value} (hp : p ∈ nodes root)
    (hm : m ∈ nodes root) (hne : m ≠ p) (hc : c ∈ p.children) (hx : c.field "id" = .text x)
    (hitems : (items.map fun d => d.field "id") = m.children.map fun d => d.field "id") :
    without x items = items := by
  refine without_eq_self fun d hd hdx => ?_
  have hread : d.field "id" ∈ m.children.map fun d => d.field "id" :=
    hitems ▸ List.mem_map_of_mem (f := fun d => d.field "id") hd
  obtain ⟨e, he, heid⟩ := List.mem_map.mp hread
  exact h.ne_of_other_parent hp hm hne hc e he ((heid.trans hdx).trans hx.symm)

/-- A cut takes the node out of whatever child list it is in. -/
theorem WellFormed.detach_eq_relist {v : Visit} (hl : locateInner root (.text x) = .ok (some v)) :
    Tree.detach root v = relist (fun _ items => without x items) root := by
  obtain ⟨hplaced, hsame, p, -, -, habove, hchild⟩ := locateInner_eq hl
  have hx : v.node.field "id" = .text x := (Value.same_text_iff _ _).mp hsame
  have hmem : v.node ∈ p.children := List.mem_of_getElem? hchild
  have hp : p ∈ nodes root := mem_nodes_of_nodeAt? habove (isObject_of_mem_children hmem)
  refine (relist_eq_editAt habove (isSome_childList?_of_mem hmem) h.distinct
    (h.without_eq_eraseIdx hp hchild hx) fun m hm hne items hitems => ?_).symm
  exact h.without_of_other_parent hp hm (fun heq => hne (by rw [heq])) hmem hx hitems

end WellFormed

end PageBuilder.Tree
