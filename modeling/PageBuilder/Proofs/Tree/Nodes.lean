import PageBuilder.Proofs.Value.Fields
import PageBuilder.Tree.Edit

/-!
The nodes of a tree, and what an edit at an address does to them.

* `nodes`: the nodes in order, each before those below it;
* `map_nodes_editAt`: an edit at an address replaces the nodes below the address and keeps what is
  read of all others, their children apart;
* `map_nodes_editChildren`: the same for a change of one child list;
* `forall_nodes_editAt`: what holds of all nodes and bears a change of children holds after an edit
  if it holds below the address;
* `forall_nodes_editAt_of_iff`, `forall_nodes_editChildren`: the same for what does not look at
  children.
-/

namespace PageBuilder.Tree

/-! ## Nodes -/

theorem sizeOf_head_lt (v : Value) (rest : List Value) : sizeOf v < sizeOf (v :: rest) := by
  rw [List.cons.sizeOf_spec]
  omega

theorem sizeOf_tail_lt (v : Value) (rest : List Value) : sizeOf rest < sizeOf (v :: rest) := by
  rw [List.cons.sizeOf_spec]
  omega

mutual

/-- The nodes of a tree, each before those below it. A child that is no object is no node. -/
def nodes (v : Value) : List Value := v :: nodesOf v.children
termination_by sizeOf v
decreasing_by exact v.sizeOf_children_lt

/-- The nodes of the trees in a child list. -/
def nodesOf (vs : List Value) : List Value :=
  match vs with
  | [] => []
  | v :: rest => if v.isObject then nodes v ++ nodesOf rest else nodesOf rest
termination_by sizeOf vs
decreasing_by
  · exact sizeOf_head_lt v rest
  · exact sizeOf_tail_lt v rest
  · exact sizeOf_tail_lt v rest

end

theorem nodes_eq (v : Value) : nodes v = v :: nodesOf v.children := by rw [nodes]

@[simp] theorem nodesOf_nil : nodesOf [] = [] := by rw [nodesOf]

theorem nodesOf_cons {v : Value} (h : v.isObject) (rest : List Value) :
    nodesOf (v :: rest) = nodes v ++ nodesOf rest := by
  rw [nodesOf, if_pos h]

theorem nodesOf_singleton {v : Value} (h : v.isObject) : nodesOf [v] = nodes v := by
  rw [nodesOf_cons h, nodesOf_nil, List.append_nil]

@[simp] theorem nodesOf_append (vs ws : List Value) :
    nodesOf (vs ++ ws) = nodesOf vs ++ nodesOf ws := by
  induction vs with
  | nil => rw [List.nil_append, nodesOf_nil, List.nil_append]
  | cons v rest ih =>
    rw [List.cons_append, nodesOf, nodesOf, ih]
    split
    · rw [List.append_assoc]
    · rfl

theorem mem_nodesOf {vs : List Value} {n : Value} :
    n ∈ nodesOf vs ↔ ∃ v ∈ vs, v.isObject ∧ n ∈ nodes v := by
  induction vs with
  | nil => simp [nodesOf_nil]
  | cons v rest ih =>
    rw [nodesOf]
    split
    · rename_i h
      simp [ih, h]
    · rename_i h
      simp [ih, h]

@[simp] theorem self_mem_nodes (v : Value) : v ∈ nodes v := by
  rw [nodes_eq]
  exact List.mem_cons_self ..

theorem mem_nodes_of_child {v c n : Value} (hc : c ∈ v.children) (ho : c.isObject)
    (hn : n ∈ nodes c) : n ∈ nodes v := by
  rw [nodes_eq]
  exact List.mem_cons_of_mem _ (mem_nodesOf.mpr ⟨c, hc, ho, hn⟩)

theorem nodes_subset {v n : Value} (h : n ∈ nodes v) : nodes n ⊆ nodes v := by
  induction v using Value.children_induction with
  | step v ih =>
    rw [nodes_eq] at h
    rcases List.mem_cons.mp h with rfl | h
    · exact List.Subset.refl _
    · obtain ⟨c, hc, ho, hn⟩ := mem_nodesOf.mp h
      exact fun m hm => mem_nodes_of_child hc ho (ih c hc hn hm)

theorem isObject_of_mem_children {v c : Value} (h : c ∈ v.children) : v.isObject = true := by
  cases v with
  | object fields => rfl
  | _ => simp [Value.children, Value.childList?] at h

/-! ## Changes of children -/

theorem childList?_editChildren {v : Value} (h : v.isObject) (f : List Value → List Value) :
    (editChildren f v).childList? = some (f v.children) := by
  cases v with
  | object fields => simp [editChildren, Value.childList?, Fields.get?_set]
  | _ => cases h

theorem children_editChildren {v : Value} (h : v.isObject) (f : List Value → List Value) :
    (editChildren f v).children = f v.children := by
  rw [Value.children, childList?_editChildren h, Option.getD_some]

theorem isObject_of_childList? {v : Value} (h : v.childList?.isSome) : v.isObject = true := by
  cases v with
  | object fields => rfl
  | _ => cases h

theorem isSome_childList?_of_mem {v c : Value} (h : c ∈ v.children) : v.childList?.isSome := by
  obtain ⟨items, hitems, -⟩ := Value.exists_of_mem_children h
  rw [(v.childList?_eq_some_iff items).mpr hitems]
  rfl

theorem isSome_childList?_editChildren {v : Value} (h : v.childList?.isSome)
    (g : List Value → List Value) : (editChildren g v).childList?.isSome := by
  rw [childList?_editChildren (isObject_of_childList? h)]
  rfl

theorem editChildren_editChildren (f g : List Value → List Value) (v : Value) :
    editChildren f (editChildren g v) = editChildren (fun items => f (g items)) v := by
  cases v with
  | object fields =>
    have hchildren := children_editChildren (v := .object fields) rfl g
    rw [editChildren] at hchildren ⊢
    rw [editChildren, hchildren, Fields.set_set, editChildren]
  | _ => rfl

/-- A child list that stays as it is changes nothing. -/
theorem editChildren_self {v : Value} (h : v.childList?.isSome) :
    editChildren (fun items => items) v = v := by
  obtain ⟨items, hitems⟩ := Option.isSome_iff_exists.mp h
  have hget := (v.childList?_eq_some_iff items).mp hitems
  cases v with
  | object fields =>
    rw [editChildren, Value.children, hitems, Option.getD_some, Fields.set_eq_self hget]
  | _ => rfl

theorem editChildren_congr {v : Value} {f g : List Value → List Value}
    (h : f v.children = g v.children) : editChildren f v = editChildren g v := by
  cases v with
  | object fields => rw [editChildren, editChildren, h]
  | _ => rfl

@[simp] theorem isObject_editChildren (f : List Value → List Value) (v : Value) :
    (editChildren f v).isObject = v.isObject := by
  cases v <;> rfl

theorem field_editChildren {name : String} (hne : name ≠ "children") (f : List Value → List Value)
    (v : Value) : (editChildren f v).field name = v.field name := by
  cases v with
  | object fields => exact Fields.field_set_of_ne fields _ hne
  | _ => rfl

@[simp] theorem kind?_editChildren (f : List Value → List Value) (v : Value) :
    (editChildren f v).kind? = v.kind? := by
  rw [Value.kind?, field_editChildren (by decide), Value.kind?]

@[simp] theorem isContainer_editChildren (f : List Value → List Value) (v : Value) :
    (editChildren f v).isContainer = v.isContainer := by
  rw [Value.isContainer, kind?_editChildren, Value.isContainer]

/-! ## Addresses -/

/-- What an address leads to: the places of children, from the root down. -/
def nodeAt? (v : Value) : List Nat → Option Value
  | [] => some v
  | i :: rest => v.children[i]?.bind fun c => nodeAt? c rest

theorem nodeAt?_append (v : Value) (a b : List Nat) :
    nodeAt? v (a ++ b) = (nodeAt? v a).bind fun c => nodeAt? c b := by
  induction a generalizing v with
  | nil => rfl
  | cons i rest ih =>
    simp only [List.cons_append, nodeAt?]
    cases v.children[i]? with
    | none => rfl
    | some c => exact ih c

theorem nodeAt?_cons {v n : Value} {i : Nat} {rest : List Nat}
    (h : nodeAt? v (i :: rest) = some n) :
    ∃ c, v.children[i]? = some c ∧ nodeAt? c rest = some n := by
  simpa [nodeAt?, Option.bind_eq_some_iff] using h

/-- An object is reached through objects only. -/
theorem isObject_of_nodeAt? {v n : Value} {a : List Nat} (h : nodeAt? v a = some n)
    (hn : n.isObject) : v.isObject = true := by
  cases a with
  | nil =>
    cases h
    exact hn
  | cons i rest =>
    obtain ⟨c, hc, -⟩ := nodeAt?_cons h
    exact isObject_of_mem_children (List.mem_of_getElem? hc)

/-- The changed node stands where the node stood. -/
theorem nodeAt?_editAt {v n : Value} {a : List Nat} (h : nodeAt? v a = some n)
    (f : Value → Value) : nodeAt? (editAt a f v) a = some (f n) := by
  induction a generalizing v with
  | nil =>
    cases h
    rfl
  | cons i rest ih =>
    obtain ⟨c, hc, hrest⟩ := nodeAt?_cons h
    have ho := isObject_of_mem_children (List.mem_of_getElem? hc)
    rw [editAt, nodeAt?, children_editChildren ho, List.getElem?_modify, hc]
    simpa using ih hrest

theorem mem_nodes_of_nodeAt? {v n : Value} {a : List Nat} (h : nodeAt? v a = some n)
    (hn : n.isObject) : n ∈ nodes v := by
  induction a generalizing v with
  | nil =>
    cases h
    exact self_mem_nodes n
  | cons i rest ih =>
    obtain ⟨c, hc, hrest⟩ := nodeAt?_cons h
    exact mem_nodes_of_child (List.mem_of_getElem? hc) (isObject_of_nodeAt? hrest hn) (ih hrest)

theorem nodes_subset_of_nodeAt? {v n : Value} {a : List Nat} (h : nodeAt? v a = some n)
    (hn : n.isObject) : nodes n ⊆ nodes v :=
  nodes_subset (mem_nodes_of_nodeAt? h hn)

theorem eq_take_cons_drop {vs : List Value} {i : Nat} {c : Value} (h : vs[i]? = some c) :
    vs = vs.take i ++ c :: vs.drop (i + 1) := by
  obtain ⟨hi, rfl⟩ := List.getElem?_eq_some_iff.mp h
  rw [← List.drop_eq_getElem_cons hi, List.take_append_drop]

theorem modify_eq_take_cons_drop {vs : List Value} {i : Nat} {c : Value} (h : vs[i]? = some c)
    (f : Value → Value) : vs.modify i f = vs.take i ++ f c :: vs.drop (i + 1) := by
  obtain ⟨hi, rfl⟩ := List.getElem?_eq_some_iff.mp h
  exact List.modify_eq_take_cons_drop hi

theorem editAt_congr {v n : Value} {a : List Nat} {f g : Value → Value} (h : nodeAt? v a = some n)
    (heq : f n = g n) : editAt a f v = editAt a g v := by
  induction a generalizing v with
  | nil =>
    cases h
    exact heq
  | cons i rest ih =>
    obtain ⟨c, hc, hrest⟩ := nodeAt?_cons h
    apply editChildren_congr
    rw [modify_eq_take_cons_drop hc, modify_eq_take_cons_drop hc, ih hrest]

/-! ## Edits at an address -/

section Edits

variable {α : Type} {g : Value → α}

/-- An edit at an address replaces the nodes below the address. Of all other nodes whatever does
not look at children is read as before. -/
theorem map_nodes_editAt (hg : ∀ f v, g (editChildren f v) = g v) {root n : Value}
    {a : List Nat} (h : nodeAt? root a = some n) (hn : n.isObject) :
    ∃ before after, (nodes root).map g = before ++ (nodes n).map g ++ after ∧
      ∀ f : Value → Value, (f n).isObject →
        (nodes (editAt a f root)).map g = before ++ (nodes (f n)).map g ++ after := by
  induction a generalizing root with
  | nil =>
    cases h
    exact ⟨[], [], by simp, fun f _ => by simp [editAt]⟩
  | cons i rest ih =>
    obtain ⟨c, hc, hrest⟩ := nodeAt?_cons h
    obtain ⟨before, after, hwhole, hedit⟩ := ih hrest
    have hroot : root.isObject = true := isObject_of_nodeAt? h hn
    have hco : c.isObject = true := isObject_of_nodeAt? hrest hn
    refine ⟨g root :: ((nodesOf (root.children.take i)).map g ++ before),
      after ++ (nodesOf (root.children.drop (i + 1))).map g, ?_, ?_⟩
    · rw [nodes_eq, eq_take_cons_drop hc, nodesOf_append, nodesOf_cons hco,
        ← eq_take_cons_drop hc]
      simp only [List.map_cons, List.map_append, hwhole, List.append_assoc, List.cons_append]
    · intro f hf
      have heo : (editAt rest f c).isObject = true := by
        cases rest with
        | nil =>
          cases hrest
          exact hf
        | cons j more => exact (isObject_editChildren _ c).trans hco
      rw [editAt, nodes_eq, children_editChildren hroot, modify_eq_take_cons_drop hc,
        nodesOf_append, nodesOf_cons heo]
      simp only [List.map_cons, List.map_append, hg, hedit f hf, List.append_assoc,
        List.cons_append]

/-- What holds of all nodes, and bears a change of the children as long as they stay objects, holds
after an edit if it holds below the address. -/
theorem forall_nodes_editAt {Q : Value → Prop}
    (hQ : ∀ v f, Q v → v.children ≠ [] → (∀ c ∈ f v.children, c.isObject) →
      Q (editChildren f v))
    (hobj : ∀ v, Q v → ∀ c ∈ v.children, c.isObject)
    {root n : Value} {a : List Nat} {f : Value → Value} (h : nodeAt? root a = some n)
    (hf : (f n).isObject) (hroot : ∀ v ∈ nodes root, Q v)
    (hnew : ∀ v ∈ nodes (f n), Q v) : ∀ v ∈ nodes (editAt a f root), Q v := by
  induction a generalizing root with
  | nil =>
    cases h
    exact hnew
  | cons i rest ih =>
    obtain ⟨c, hc, hrest⟩ := nodeAt?_cons h
    have hmem : c ∈ root.children := List.mem_of_getElem? hc
    have hself : Q root := hroot root (self_mem_nodes root)
    have hro : root.isObject = true := isObject_of_mem_children hmem
    have heo : (editAt rest f c).isObject = true := by
      cases rest with
      | nil =>
        cases hrest
        exact hf
      | cons j more => exact (isObject_editChildren _ c).trans (hobj root hself c hmem)
    have hchildren : ∀ d ∈ root.children.modify i (editAt rest f), d.isObject = true := by
      intro d hd
      rw [modify_eq_take_cons_drop hc, List.mem_append, List.mem_cons] at hd
      rcases hd with hd | rfl | hd
      · exact hobj root hself d (List.mem_of_mem_take hd)
      · exact heo
      · exact hobj root hself d (List.mem_of_mem_drop hd)
    intro v hv
    rw [editAt, nodes_eq, children_editChildren hro, List.mem_cons] at hv
    rcases hv with rfl | hv
    · exact hQ root _ hself (List.ne_nil_of_mem hmem) hchildren
    · obtain ⟨d, hd, hdo, hvd⟩ := mem_nodesOf.mp hv
      rw [modify_eq_take_cons_drop hc, List.mem_append, List.mem_cons] at hd
      rcases hd with hd | rfl | hd
      · exact hroot v (mem_nodes_of_child (List.mem_of_mem_take hd) hdo hvd)
      · refine ih hrest ?_ v hvd
        exact fun w hw => hroot w (mem_nodes_of_child hmem (hobj root hself c hmem) hw)
      · exact hroot v (mem_nodes_of_child (List.mem_of_mem_drop hd) hdo hvd)

/-- A change of one child list replaces the nodes below the children. -/
theorem map_nodes_editChildren (hg : ∀ f v, g (editChildren f v) = g v) {root n : Value}
    {a : List Nat} (h : nodeAt? root a = some n) (hn : n.isObject) :
    ∃ before after, (nodes root).map g = before ++ (nodesOf n.children).map g ++ after ∧
      ∀ f : List Value → List Value, (nodes (editAt a (editChildren f) root)).map g =
        before ++ (nodesOf (f n.children)).map g ++ after := by
  obtain ⟨before, after, hwhole, hedit⟩ := map_nodes_editAt hg h hn
  refine ⟨before ++ [g n], after, ?_, ?_⟩
  · rw [hwhole, nodes_eq]
    simp
  · intro f
    rw [hedit (editChildren f) ((isObject_editChildren f n).trans hn), nodes_eq,
      children_editChildren hn]
    simp [hg]

/-- What holds of all nodes, and does not look at children, holds after an edit if it holds of the
new node and of all below it. -/
theorem forall_nodes_editAt_of_iff {Q : Value → Prop} (hQ : ∀ f v, Q (editChildren f v) ↔ Q v)
    {root n : Value} {a : List Nat} {f : Value → Value} (h : nodeAt? root a = some n)
    (hn : n.isObject) (hf : (f n).isObject) (hroot : ∀ v ∈ nodes root, Q v)
    (hnew : ∀ v ∈ nodes (f n), Q v) : ∀ v ∈ nodes (editAt a f root), Q v := by
  obtain ⟨before, after, hwhole, hedit⟩ :=
    map_nodes_editAt (g := Q) (fun f v => propext (hQ f v)) h hn
  have hall : ∀ p ∈ (nodes root).map Q, p := List.forall_mem_map.mpr hroot
  have hbelow : ∀ p ∈ (nodes (f n)).map Q, p := List.forall_mem_map.mpr hnew
  suffices hedited : ∀ p ∈ (nodes (editAt a f root)).map Q, p by
    intro v hv
    exact hedited (Q v) (List.mem_map_of_mem hv)
  rw [hwhole] at hall
  rw [hedit f hf]
  intro p hp
  rcases List.mem_append.mp hp with hp | hp
  · rcases List.mem_append.mp hp with hp | hp
    · exact hall p (List.mem_append_left _ (List.mem_append_left _ hp))
    · exact hbelow p hp
  · exact hall p (List.mem_append_right _ hp)

/-- The same for a change of one child list, whose members are from before or new. -/
theorem forall_nodes_editChildren {Q : Value → Prop} (hQ : ∀ f v, Q (editChildren f v) ↔ Q v)
    {root n : Value} {a : List Nat} {f : List Value → List Value} (h : nodeAt? root a = some n)
    (hn : n.isObject) (hroot : ∀ v ∈ nodes root, Q v)
    (hf : ∀ c ∈ f n.children, c ∈ n.children ∨ ∀ v ∈ nodes c, Q v) :
    ∀ v ∈ nodes (editAt a (editChildren f) root), Q v := by
  refine forall_nodes_editAt_of_iff hQ h hn ((isObject_editChildren f n).trans hn) hroot ?_
  have hsub := nodes_subset_of_nodeAt? h hn
  intro v hv
  rw [nodes_eq, children_editChildren hn] at hv
  rcases List.mem_cons.mp hv with rfl | hv
  · exact (hQ f n).mpr (hroot n (hsub (self_mem_nodes n)))
  · obtain ⟨c, hc, ho, hv⟩ := mem_nodesOf.mp hv
    rcases hf c hc with hold | hnew
    · exact hroot v (hsub (mem_nodes_of_child hold ho hv))
    · exact hnew v hv

end Edits

end PageBuilder.Tree
