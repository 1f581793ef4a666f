import PageBuilder.Proofs.Tree.WellFormed

/-!
What each edit makes of a tree, and that it makes a well-formed tree of a well-formed one.

* `update_eq`, `remove_eq`, `reorder_eq`, `move_eq`: an edit that is not refused, said as a change
  at an address of a placed node;
* `WellFormed.editChildren`: a child list may be put in another order and take in sound trees;
* `WellFormed.detach`, `WellFormed.update`, `WellFormed.reorder`, `WellFormed.move`.
-/

namespace PageBuilder.Tree

/-! ## Changes of one child list -/

theorem nodesOf_eq_flatMap (vs : List Value) :
    nodesOf vs = (vs.filter Value.isObject).flatMap nodes := by
  induction vs with
  | nil => rw [nodesOf_nil, List.filter_nil, List.flatMap_nil]
  | cons v rest ih =>
    rw [nodesOf]
    split
    · rename_i h
      rw [List.filter_cons_of_pos h, List.flatMap_cons, ih]
    · rename_i h
      rw [List.filter_cons_of_neg h, ih]

theorem nodesOf_perm {vs ws : List Value} (h : vs.Perm ws) : (nodesOf vs).Perm (nodesOf ws) := by
  rw [nodesOf_eq_flatMap, nodesOf_eq_flatMap]
  exact (h.filter _).flatMap_right nodes

/-- Where a child list gives up some trees and takes in others, so does the whole tree, in whatever
is read of its nodes without a look at their children. -/
theorem map_nodes_perm {α : Type} {g : Value → α} (hg : ∀ f v, g (editChildren f v) = g v)
    {root n : Value} {a : List Nat} {f : List Value → List Value} (h : nodeAt? root a = some n)
    (hn : n.isObject) {less more : List Value}
    (hperm : (f n.children ++ less).Perm (n.children ++ more)) :
    ((nodes (editAt a (editChildren f) root)).map g ++ (nodesOf less).map g).Perm
      ((nodes root).map g ++ (nodesOf more).map g) := by
  obtain ⟨before, after, hwhole, hedit⟩ := map_nodes_editChildren hg h hn
  have hlist := (nodesOf_perm hperm).map g
  rw [nodesOf_append, nodesOf_append, List.map_append, List.map_append] at hlist
  rw [hwhole, hedit f]
  classical
  rw [List.perm_iff_count] at hlist ⊢
  intro m
  have hm := hlist m
  simp only [List.count_append] at hm ⊢
  omega

@[simp] theorem mark_editAt (f : List Value → List Value) (a : List Nat) (root : Value) :
    mark (editAt a (editChildren f) root) = mark root := by
  cases a with
  | nil => exact mark_editChildren f root
  | cons i rest => exact mark_editChildren _ root

/-- The same for the marks of all nodes below the root. -/
theorem marksOf_editChildren {root n : Value} {a : List Nat} {f : List Value → List Value}
    (h : nodeAt? root a = some n) (hn : n.isObject) {less more : List Value}
    (hperm : (f n.children ++ less).Perm (n.children ++ more)) :
    (marksOf (editAt a (editChildren f) root).children ++ marksOf less).Perm
      (marksOf root.children ++ marksOf more) := by
  have hall : (marks (editAt a (editChildren f) root) ++ marksOf less).Perm
      (marks root ++ marksOf more) := map_nodes_perm mark_editChildren h hn hperm
  rw [marks_eq, marks_eq, mark_editAt, List.cons_append, List.cons_append,
    List.perm_cons] at hall
  exact hall

/-- A child list may be put in another order and take in sound trees with marks of their own. -/
theorem WellFormed.editChildren {root n : Value} {a : List Nat} {f : List Value → List Value}
    (h : WellFormed root) (hat : nodeAt? root a = some n) (hn : n.isObject)
    (hc : n.isContainer = true) (more : List Value)
    (hperm : (f n.children).Perm (n.children ++ more))
    (hsound : ∀ c ∈ more, c.isObject = true ∧ ∀ m ∈ nodes c, Sound m)
    (hwell : MarkedWell (mark root) (marksOf root.children ++ marksOf more)) :
    WellFormed (editAt a (Tree.editChildren f) root) := by
  have hself : Sound n := h.sound n (mem_nodes_of_nodeAt? hat hn)
  refine .of_marks (marksOf root.children ++ marksOf more)
    (sound_editChildren h.sound hat hn hc ?_) ?_ ?_
  · intro c hmem
    rcases List.mem_append.mp (hperm.subset hmem) with hold | hnew
    · refine ⟨hself.isObject_child hold, fun m hm => h.sound m ?_⟩
      exact nodes_subset_of_nodeAt? hat hn (mem_nodes_of_child hold (hself.isObject_child hold) hm)
    · exact hsound c hnew
  · rw [mark_editAt]
    exact hwell
  · have hboth : (f n.children ++ []).Perm (n.children ++ more) := by rwa [List.append_nil]
    have hmarks := marksOf_editChildren hat hn hboth
    rwa [marksOf_nil, List.append_nil] at hmarks

/-! ## Cuts -/

section Cuts

variable {root p : Value} {v : Visit}

theorem perm_eraseIdx {vs : List Value} {i : Nat} {c : Value} (h : vs[i]? = some c) :
    (vs.eraseIdx i ++ [c]).Perm vs := by
  conv_rhs => rw [eq_take_cons_drop h]
  rw [List.eraseIdx_eq_take_drop_succ, List.append_assoc]
  exact (List.perm_append_comm).append_left _

/-- What is read of the nodes of a tree is divided among what is cut off and what remains. -/
theorem map_nodes_detach {α : Type} {g : Value → α} (hg : ∀ f v, g (editChildren f v) = g v)
    (habove : nodeAt? root v.above = some p) (hchild : p.children[v.index]? = some v.node)
    (ho : v.node.isObject) :
    ((nodes (detach root v)).map g ++ (nodes v.node).map g).Perm ((nodes root).map g) := by
  have hp : p.isObject = true := isObject_of_mem_children (List.mem_of_getElem? hchild)
  have hboth : (p.children.eraseIdx v.index ++ [v.node]).Perm (p.children ++ []) := by
    rw [List.append_nil]
    exact perm_eraseIdx hchild
  have hnodes := map_nodes_perm (f := fun children => children.eraseIdx v.index) hg habove hp hboth
  rwa [nodesOf_singleton ho, nodesOf_nil, List.map_nil, List.append_nil] at hnodes

theorem marksOf_detach (habove : nodeAt? root v.above = some p)
    (hchild : p.children[v.index]? = some v.node) (ho : v.node.isObject) :
    (marksOf (detach root v).children ++ marks v.node).Perm (marksOf root.children) := by
  have hp : p.isObject = true := isObject_of_mem_children (List.mem_of_getElem? hchild)
  have hboth : (p.children.eraseIdx v.index ++ [v.node]).Perm (p.children ++ []) := by
    rw [List.append_nil]
    exact perm_eraseIdx hchild
  have hmarks := marksOf_editChildren (f := fun children => children.eraseIdx v.index) habove hp
    hboth
  rwa [marksOf_singleton ho, marksOf_nil, List.append_nil] at hmarks

theorem WellFormed.detach (h : WellFormed root) (habove : nodeAt? root v.above = some p)
    (hchild : p.children[v.index]? = some v.node) (ho : v.node.isObject) :
    WellFormed (Tree.detach root v) := by
  have hmem : v.node ∈ p.children := List.mem_of_getElem? hchild
  have hp : p.isObject = true := isObject_of_mem_children hmem
  have hself : Sound p := h.sound p (mem_nodes_of_nodeAt? habove hp)
  have hc : p.isContainer = true := hself.isContainer_of_children (List.ne_nil_of_mem hmem)
  have hmarks := marksOf_detach habove hchild ho
  refine .of_marks _ (sound_editChildren h.sound habove hp hc ?_) ?_ (.refl _)
  · intro c hcm
    have hold : c ∈ p.children := List.mem_of_mem_eraseIdx hcm
    refine ⟨hself.isObject_child hold, fun m hm => h.sound m ?_⟩
    exact nodes_subset_of_nodeAt? habove hp
      (mem_nodes_of_child hold (hself.isObject_child hold) hm)
  · rw [Tree.detach, mark_editAt]
    have hall := h.markedWell
    refine ⟨hall.page, fun m hm => hall.inner m ?_, ?_⟩
    · exact hmarks.subset (List.mem_append_left _ hm)
    · have hd := ((hmarks.cons (mark root)).map Prod.fst).nodup_iff.mpr hall.distinct
      exact hd.sublist (((List.sublist_append_left _ _).cons_cons _).map _)

end Cuts

theorem remove_eq {root id root' : Value} {removed : List Value}
    (h : remove root id = .ok (some (root', removed))) :
    ∃ v, locateInner root id = .ok (some v) ∧ ids v.node = .ok removed ∧
      removed.all Value.isHashable = true ∧ root' = detach root v := by
  obtain ⟨found, hl, h⟩ := bind_eq_ok_iff.mp h
  cases found with
  | none => cases h
  | some v =>
    obtain ⟨below, hids, h⟩ := bind_eq_ok_iff.mp h
    split at h
    · rename_i hall
      cases h
      exact ⟨v, hl, hids, hall, rfl⟩
    · cases h

theorem WellFormed.remove {root id root' : Value} {removed : List Value} (h : WellFormed root)
    (hr : Tree.remove root id = .ok (some (root', removed))) : WellFormed root' := by
  obtain ⟨v, hl, -, -, rfl⟩ := remove_eq hr
  obtain ⟨hplaced, -, p, -, -, habove, hchild⟩ := locateInner_eq hl
  exact h.detach habove hchild hplaced.isObject

/-! ## Order -/

theorem reorder_eq {root id direction root' : Value}
    (h : reorder root id direction = .ok (some root')) :
    ∃ d v place, Direction.ofValue? direction = some d ∧ locateInner root id = .ok (some v) ∧
      d.from? v.index ((v.parent.map Value.children).getD []).length = some place ∧
      root' = editAt v.above (editChildren (swap v.index place)) root := by
  unfold reorder at h
  split at h
  · cases h
  · rename_i d hd
    obtain ⟨found, hl, h⟩ := bind_eq_ok_iff.mp h
    cases found with
    | none => cases h
    | some v =>
      obtain ⟨place, hplace, rfl⟩ := Option.map_eq_some_iff.mp (Except.ok.inj h)
      exact ⟨d, v, place, hd, hl, hplace, rfl⟩

theorem swap_perm (i j : Nat) (vs : List Value) : (swap i j vs).Perm vs := by
  unfold swap
  split
  · rename_i a b ha hb
    obtain ⟨hi, rfl⟩ := List.getElem?_eq_some_iff.mp ha
    obtain ⟨hj, rfl⟩ := List.getElem?_eq_some_iff.mp hb
    exact List.set_set_perm hi hj
  · exact .refl _

theorem WellFormed.reorder {root id direction root' : Value} (h : WellFormed root)
    (hr : Tree.reorder root id direction = .ok (some root')) : WellFormed root' := by
  obtain ⟨d, v, place, -, hl, -, rfl⟩ := reorder_eq hr
  obtain ⟨-, -, p, -, -, habove, hchild⟩ := locateInner_eq hl
  have hmem : v.node ∈ p.children := List.mem_of_getElem? hchild
  have hp : p.isObject = true := isObject_of_mem_children hmem
  have hself : Sound p := h.sound p (mem_nodes_of_nodeAt? habove hp)
  refine h.editChildren habove hp (hself.isContainer_of_children (List.ne_nil_of_mem hmem)) []
    ?_ ?_ ?_
  · rw [List.append_nil]
    exact swap_perm v.index place p.children
  · intro c hc
    cases hc
  · rw [marksOf_nil, List.append_nil]
    exact h.markedWell

/-- What is read of the nodes of a tree is read after its order was changed. -/
theorem map_nodes_reorder {α : Type} {g : Value → α} (hg : ∀ f v, g (editChildren f v) = g v)
    {root root' id direction : Value} (h : reorder root id direction = .ok (some root')) :
    ((nodes root').map g).Perm ((nodes root).map g) := by
  obtain ⟨d, v, place, -, hl, -, rfl⟩ := reorder_eq h
  obtain ⟨-, -, p, -, -, habove, hchild⟩ := locateInner_eq hl
  have hp : p.isObject = true := isObject_of_mem_children (List.mem_of_getElem? hchild)
  have hswap : (swap v.index place p.children ++ []).Perm (p.children ++ []) := by
    rw [List.append_nil, List.append_nil]
    exact swap_perm v.index place p.children
  have hnodes := map_nodes_perm (f := swap v.index place) hg habove hp hswap
  rwa [nodesOf_nil, List.map_nil, List.append_nil, List.append_nil] at hnodes

/-! ## Moves -/

theorem move_eq {root id targetId index root' : Value}
    (h : move root id targetId index = .ok (some root')) :
    ∃ v target place, locateInner root id = .ok (some v) ∧
      locate (detach root v) targetId = .ok (some target) ∧ target.node.isContainer = true ∧
      index.integer = .ok place ∧
      root' = editAt target.address (editChildren (insertAt place v.node)) (detach root v) := by
  obtain ⟨r, -, h⟩ := bind_eq_ok_iff.mp h
  split at h
  · cases h
  · obtain ⟨found, hl, h⟩ := bind_eq_ok_iff.mp h
    cases found with
    | none => cases h
    | some v =>
      obtain ⟨found, ht, h⟩ := bind_eq_ok_iff.mp h
      cases found with
      | none => cases h
      | some target =>
        simp only at h
        split at h
        · rename_i hc
          obtain ⟨place, hplace, h⟩ := bind_eq_ok_iff.mp h
          cases h
          exact ⟨v, target, place, hl, ht, hc, hplace, rfl⟩
        · cases h

theorem insertAt_perm (place : Int) (item : Value) (vs : List Value) :
    (insertAt place item vs).Perm (vs ++ [item]) := by
  unfold insertAt
  exact (List.perm_insertIdx item vs (Nat.min_le_right _ _)).trans
    (List.perm_append_singleton item vs).symm

theorem WellFormed.move {root id targetId index root' : Value} (h : WellFormed root)
    (hm : Tree.move root id targetId index = .ok (some root')) : WellFormed root' := by
  obtain ⟨v, target, place, hl, ht, hc, -, rfl⟩ := move_eq hm
  obtain ⟨hplaced, -, p, -, haddress, habove, hchild⟩ := locateInner_eq hl
  have ho : v.node.isObject = true := hplaced.isObject
  have hplacedTarget := (locate_eq ht).1
  have hmarks := marksOf_detach habove hchild ho
  refine (h.detach habove hchild ho).editChildren hplacedTarget.node hplacedTarget.isObject hc
    [v.node] (insertAt_perm place v.node target.node.children) ?_ ?_
  · intro c hmem
    rw [List.mem_singleton] at hmem
    subst hmem
    exact ⟨ho, fun m hm => h.sound m (nodes_subset hplaced.mem_nodes hm)⟩
  · rw [marksOf_singleton ho]
    have hall := h.markedWell
    refine ⟨?_, fun m hm => hall.inner m (hmarks.subset hm), ?_⟩
    · rw [Tree.detach, mark_editAt]
      exact hall.page
    · rw [Tree.detach, mark_editAt]
      exact ((hmarks.cons (mark root)).map Prod.fst).nodup_iff.mpr hall.distinct

/-- What is read of the nodes of a tree is read after one was moved. -/
theorem map_nodes_move {α : Type} {g : Value → α} (hg : ∀ f v, g (editChildren f v) = g v)
    {root root' id targetId index : Value}
    (h : move root id targetId index = .ok (some root')) :
    ((nodes root').map g).Perm ((nodes root).map g) := by
  obtain ⟨v, target, place, hl, ht, -, -, rfl⟩ := move_eq h
  obtain ⟨hplaced, -, p, -, -, habove, hchild⟩ := locateInner_eq hl
  have hat := (locate_eq ht).1
  have hinsert : (insertAt place v.node target.node.children ++ []).Perm
      (target.node.children ++ [v.node]) := by
    rw [List.append_nil]
    exact insertAt_perm place v.node target.node.children
  have hnodes := map_nodes_perm (f := insertAt place v.node) hg hat.node hat.isObject hinsert
  rw [nodesOf_nil, List.map_nil, List.append_nil, nodesOf_singleton hplaced.isObject] at hnodes
  exact hnodes.trans (map_nodes_detach hg habove hchild hplaced.isObject)

/-! ## Fields -/

theorem update_eq {root id fields root' : Value} (h : update root id fields = .ok (some root')) :
    ∃ news v, fields = .object news ∧ locate root id = .ok (some v) ∧
      allowsFields v.node news = true ∧ root' = editAt v.address (putFields news) root := by
  unfold update at h
  split at h
  · rename_i news
    obtain ⟨found, hl, h⟩ := bind_eq_ok_iff.mp h
    cases found with
    | none => cases h
    | some v =>
      simp only at h
      split at h
      · rename_i ha
        cases h
        exact ⟨news, v, rfl, hl, ha, rfl⟩
      · cases h
  · cases h

section Put

variable {old news : Fields}

theorem get?_children_of_allowsFields (ha : allowsFields (.object old) news = true) :
    Fields.get? (Fields.merge old news) "children" = Fields.get? old "children" := by
  apply Fields.get?_merge (P := fun x => x = Fields.get? old "children") rfl
  intro v hv
  have := List.all_eq_true.mp ha _ hv
  simp [allowsField] at this

theorem field_id_of_allowsFields {id : String} (hid : Fields.field old "id" = .text id)
    (ha : allowsFields (.object old) news = true) :
    Fields.field (Fields.merge old news) "id" = .text id := by
  apply Fields.get?_merge (P := fun x => x.getD .null = .text id) hid
  intro v hv
  have hsame : v.same (Fields.field old "id") = true := List.all_eq_true.mp ha _ hv
  rw [hid, Value.same_text_iff] at hsame
  rw [hsame, Option.getD_some]

/-- A kind that fields may set is a page or a container just if the kind before is. -/
theorem kind_of_allowsKind {node kind : Value} {k : ComponentKind} (hk : node.kind? = some k)
    (ha : kind.same (node.field "type") = true ∨ allowsKind node kind = true) :
    ∃ k', ComponentKind.ofValue? kind = some k' ∧ k'.isContainer = k.isContainer ∧
      (k' == .page) = (k == .page) := by
  have htype : ∃ name, node.field "type" = .text name := by
    unfold Value.kind? at hk
    cases hv : node.field "type" with
    | atom a =>
      rw [hv] at hk
      cases a with
      | text name => exact ⟨name, rfl⟩
      | _ => cases hk
    | _ =>
      rw [hv] at hk
      cases hk
  obtain ⟨name, htype⟩ := htype
  rcases ha with hsame | hallows
  · rw [htype, Value.same_text_iff, ← htype] at hsame
    exact ⟨k, by rw [hsame]; exact hk, rfl, rfl⟩
  · unfold allowsKind at hallows
    split at hallows
    · cases hallows
    · rename_i k' hins
      obtain ⟨hof, hne⟩ := Option.filter_eq_some_iff.mp hins
      rw [Bool.and_eq_true, Bool.not_eq_true', beq_iff_eq] at hallows
      have hpage : (k == .page) = false := by
        rw [beq_eq_false_iff_ne]
        rintro rfl
        have hname : name = ComponentKind.page.name := by
          rw [Value.kind?, htype] at hk
          have := List.find?_some (hk : ComponentKind.ofText? name = some .page)
          exact (beq_iff_eq.mp this).symm
        have hno := hallows.1
        rw [htype, hname] at hno
        exact absurd ((Value.same_text_iff _ _).mpr rfl) (Bool.eq_false_iff.mp hno)
      refine ⟨k', hof, hallows.2.trans (isContainer_eq hk), ?_⟩
      rw [hpage]
      simpa using hne

/-- Fields that may be put into a sound node leave its name and its children alone. -/
theorem Sound.putFields {v : Value} (h : Sound v) (ha : allowsFields v news = true) :
    Sound (Tree.putFields news v) ∧ mark (Tree.putFields news v) = mark v ∧
      (Tree.putFields news v).children = v.children := by
  cases v with
  | object old =>
    obtain ⟨id, hid, hne⟩ := h.named
    obtain ⟨k, hk⟩ := Option.isSome_iff_exists.mp h.known
    have hid' := field_id_of_allowsFields hid ha
    have hget := get?_children_of_allowsFields ha
    obtain ⟨k', hk', hcont, hpage⟩ : ∃ k', (Tree.putFields news (.object old)).kind? = some k' ∧
        k'.isContainer = k.isContainer ∧ (k' == .page) = (k == .page) := by
      apply Fields.get?_merge (P := fun x => ∃ k', ComponentKind.ofValue? (x.getD .null) = some k' ∧
        k'.isContainer = k.isContainer ∧ (k' == .page) = (k == .page)) ⟨k, hk, rfl, rfl⟩
      intro w hw
      have hallows := List.all_eq_true.mp ha _ hw
      exact kind_of_allowsKind hk (Bool.or_eq_true_iff.mp hallows)
    have hlist : (Tree.putFields news (.object old)).childList? =
        (Value.object old).childList? := by
      simp only [Tree.putFields, Value.childList?, hget]
    have hsame : (Tree.putFields news (.object old)).isContainer =
        (Value.object old).isContainer := by
      rw [isContainer_eq hk', isContainer_eq hk, hcont]
    refine ⟨⟨rfl, ⟨id, hid', hne⟩, ?_, ?_, ?_⟩, ?_, ?_⟩
    · rw [hk']
      rfl
    · intro hl
      rw [hsame] at hl
      exact hget.trans (h.leaf hl)
    · intro hc
      rw [hsame] at hc
      rw [hlist]
      exact h.container hc
    · refine Prod.ext (hid'.trans hid.symm) ?_
      show (_ == _) = (_ == _)
      rw [hk', hk]
      exact hpage
    · rw [Value.children, hlist, Value.children]
  | _ => cases h.isObject

end Put

/-- An update keeps all identifiers, and what is a page. -/
theorem WellFormed.marks_update {root id fields root' : Value} (h : WellFormed root)
    (hu : Tree.update root id fields = .ok (some root')) : marks root' = marks root := by
  obtain ⟨news, v, rfl, hl, ha, rfl⟩ := update_eq hu
  have hplaced := (locate_eq hl).1
  obtain ⟨hsound, hmark, hchildren⟩ := (h.sound _ hplaced.mem_nodes).putFields ha
  obtain ⟨before, after, hwhole, hedit⟩ :=
    map_nodes_editAt mark_editChildren hplaced.node hplaced.isObject
  rw [marks, hedit _ hsound.isObject, nodes_eq, hchildren, List.map_cons, hmark, marks, hwhole,
    nodes_eq v.node, List.map_cons]

theorem WellFormed.update {root id fields root' : Value} (h : WellFormed root)
    (hu : Tree.update root id fields = .ok (some root')) : WellFormed root' := by
  have hmarks := h.marks_update hu
  obtain ⟨news, v, rfl, hl, ha, rfl⟩ := update_eq hu
  have hplaced := (locate_eq hl).1
  obtain ⟨hsound, -, hchildren⟩ := (h.sound _ hplaced.mem_nodes).putFields ha
  rw [marks_eq, marks_eq root] at hmarks
  obtain ⟨hself, hrest⟩ := List.cons.inj hmarks
  refine .of_marks (marksOf root.children) ?_ ?_ ?_
  · refine forall_nodes_editAt ?_ (fun w hw c hc => hw.isObject_child hc) hplaced.node
      hsound.isObject h.sound ?_
    · intro w f hw hne hf
      exact hw.editChildren (hw.isContainer_of_children hne) hf
    · intro w hw
      rw [nodes_eq, hchildren] at hw
      rcases List.mem_cons.mp hw with rfl | hw
      · exact hsound
      · refine h.sound w (nodes_subset hplaced.mem_nodes ?_)
        rw [nodes_eq]
        exact List.mem_cons_of_mem _ hw
  · rw [hself]
    exact h.markedWell
  · rw [hrest]

end PageBuilder.Tree
