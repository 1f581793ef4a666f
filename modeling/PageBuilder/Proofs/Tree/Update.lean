import PageBuilder.Proofs.Tree.Distinct
import PageBuilder.Proofs.Tree.Revision

/-!
An update of one node is a revision of the tree.

* `reaches`, `revise`: which nodes take fields that are put under an identifier, and what becomes of
  them;
* `revision_revise`: what updates refuse is just what would change the structure;
* `revise_comm`: updates of different nodes do not look at each other;
* `mapNodes_eq_editAt`: a revision that only one node takes is an edit at its address;
* `WellFormed.update_eq_ite`: an update revises the tree if some node is reached, and is refused
  otherwise.
-/

namespace PageBuilder.Tree

/-! ## What an allowed update leaves -/

theorem ofValue?_of_same {v w : Value} (h : v.same w = true) :
    ComponentKind.ofValue? v = ComponentKind.ofValue? w := by
  by_cases hv : ∃ s, v = .text s
  · obtain ⟨s, rfl⟩ := hv
    rw [(Value.text_same_iff s w).mp h]
  · by_cases hw : ∃ s, w = .text s
    · obtain ⟨s, rfl⟩ := hw
      rw [(Value.same_text_iff v s).mp h]
    · have hnone : ∀ u : Value, (¬∃ s, u = .text s) → ComponentKind.ofValue? u = none := by
        intro u hu
        cases u with
        | atom a =>
          cases a with
          | text s => exact absurd ⟨s, rfl⟩ hu
          | _ => rfl
        | _ => rfl
      rw [hnone v hv, hnone w hw]

variable {news : Fields}

theorem not_mem_of_allowsFields {v : Value} (h : allowsFields v news = true) (w : Value) :
    (Key.text "children", w) ∉ news := by
  intro hmem
  have hallows := List.all_eq_true.mp h _ hmem
  simp [allowsField] at hallows

theorem isContainer_putFields {v : Value} (h : allowsFields v news = true) :
    (putFields news v).isContainer = v.isContainer := by
  cases v with
  | object old =>
    show (ComponentKind.ofValue? ((Fields.get? (Fields.merge old news) "type").getD .null)).any
      ComponentKind.isContainer = _
    apply Fields.get?_merge (P := fun x => (ComponentKind.ofValue? (x.getD .null)).any
      ComponentKind.isContainer = (Value.object old).isContainer) rfl
    intro w hw
    have hallows : (w.same ((Value.object old).field "type") ||
        allowsKind (.object old) w) = true := List.all_eq_true.mp h _ hw
    rw [Option.getD_some]
    rcases Bool.or_eq_true_iff.mp hallows with hsame | hkind
    · rw [ofValue?_of_same hsame]
      rfl
    · unfold allowsKind at hkind
      split at hkind
      · cases hkind
      · rename_i k hins
        rw [(Option.filter_eq_some_iff.mp hins).1, Option.any_some]
        rw [Bool.and_eq_true, beq_iff_eq] at hkind
        exact hkind.2
  | _ => rfl

theorem childList?_putFields {v : Value} (h : allowsFields v news = true) :
    (putFields news v).childList? = v.childList? := by
  cases v with
  | object old => simp only [putFields, Value.childList?, get?_children_of_allowsFields h]
  | _ => rfl

theorem putFields_editChildren {v : Value} (h : allowsFields v news = true)
    (hsome : v.childList?.isSome) (g : List Value → List Value) :
    putFields news (editChildren g v) = editChildren g (putFields news v) := by
  have hchildren : (putFields news v).children = v.children := by
    rw [Value.children, childList?_putFields h, Value.children]
  obtain ⟨items, hitems⟩ := Option.isSome_iff_exists.mp hsome
  have hget := (v.childList?_eq_some_iff items).mp hitems
  cases v with
  | object old =>
    have hold : (Fields.get? old "children").isSome := by
      rw [show Fields.get? old "children" = _ from hget]
      rfl
    rw [putFields] at hchildren ⊢
    rw [editChildren, editChildren, hchildren, putFields,
      Fields.merge_set hold (not_mem_of_allowsFields h)]
  | _ => rfl

theorem allowsFields_editChildren (g : List Value → List Value) (v : Value) :
    allowsFields (editChildren g v) news = allowsFields v news := by
  have hid : (editChildren g v).field "id" = v.field "id" := field_editChildren (by decide) g v
  have htype : (editChildren g v).field "type" = v.field "type" :=
    field_editChildren (by decide) g v
  have hfield : allowsField (editChildren g v) = allowsField v := by
    funext field
    unfold allowsField
    split
    · rfl
    · rw [hid]
    · rw [allowsKind, allowsKind, htype, isContainer_editChildren]
    · rfl
  rw [allowsFields, hfield, allowsFields]

/-! ## Updates as revisions -/

/-- Whether a node takes fields that are put under an identifier. -/
def reaches (id fields v : Value) : Bool :=
  match id, fields with
  | .text x, .object news => (v.field "id").isTextOf x && allowsFields v news
  | _, _ => false

/-- The node after fields were put under an identifier. -/
def revise (id fields v : Value) : Value :=
  if reaches id fields v then putFields (fields.fields?.getD []) v else v

theorem reaches_iff {id fields v : Value} : reaches id fields v = true ↔
    ∃ x news, id = .text x ∧ fields = .object news ∧ v.field "id" = .text x ∧
      allowsFields v news = true := by
  constructor
  · intro h
    unfold reaches at h
    split at h
    · rename_i x news
      rw [Bool.and_eq_true, Value.isTextOf, Value.same_text_iff] at h
      exact ⟨x, news, rfl, rfl, h.1, h.2⟩
    · cases h
  · rintro ⟨x, news, rfl, rfl, hid, hallows⟩
    simp [reaches, hid, hallows, Value.isTextOf]

theorem id_of_reaches {id fields v : Value} (h : reaches id fields v = true) :
    v.field "id" = id := by
  obtain ⟨x, news, rfl, -, hid, -⟩ := reaches_iff.mp h
  exact hid

theorem reaches_of_not_isObject {fields : Value} (h : fields.isObject = false) (id v : Value) :
    reaches id fields v = false := by
  rw [Bool.eq_false_iff, Ne, reaches_iff]
  rintro ⟨x, news, -, rfl, -⟩
  cases h

theorem reaches_editChildren (id fields : Value) (g : List Value → List Value) (v : Value) :
    reaches id fields (editChildren g v) = reaches id fields v := by
  rw [Bool.eq_iff_iff, reaches_iff, reaches_iff, field_editChildren (by decide)]
  simp only [allowsFields_editChildren]

theorem revise_of_reaches {id fields v : Value} {news : Fields} (h : reaches id fields v = true)
    (hfields : fields = .object news) : revise id fields v = putFields news v := by
  rw [revise, if_pos h, hfields]
  rfl

theorem revise_of_not_reaches {id fields v : Value} (h : reaches id fields v = false) :
    revise id fields v = v := by
  rw [revise, h]
  rfl

theorem revise_cases (id fields v : Value) : revise id fields v = v ∨
    ∃ x news, v.field "id" = .text x ∧ allowsFields v news = true ∧
      revise id fields v = putFields news v := by
  cases h : reaches id fields v with
  | false => exact .inl (revise_of_not_reaches h)
  | true =>
    obtain ⟨x, news, -, hfields, hid, hallows⟩ := reaches_iff.mp h
    exact .inr ⟨x, news, hid, hallows, revise_of_reaches h hfields⟩

/-- What updates refuse is just what would change the structure of a tree. -/
theorem revision_revise (id fields : Value) : Revision (revise id fields) where
  other v hv := by
    rcases revise_cases id fields v with h | ⟨x, news, hid, -, -⟩
    · exact h
    · cases v with
      | object old => cases hv
      | _ => cases hid
  isObject v := by
    rcases revise_cases id fields v with h | ⟨x, news, -, -, h⟩
    · rw [h]
    · rw [h]
      cases v <;> rfl
  id v := by
    rcases revise_cases id fields v with h | ⟨x, news, hid, hallows, h⟩
    · rw [h]
    · rw [h, hid]
      cases v with
      | object old => exact field_id_of_allowsFields hid hallows
      | _ => cases hid
  isContainer v := by
    rcases revise_cases id fields v with h | ⟨x, news, -, hallows, h⟩
    · rw [h]
    · rw [h, isContainer_putFields hallows]
  childList? v := by
    rcases revise_cases id fields v with h | ⟨x, news, -, hallows, h⟩
    · rw [h]
    · rw [h, childList?_putFields hallows]
  editChildren g v hsome := by
    have hkept := reaches_editChildren id fields g v
    cases h : reaches id fields v with
    | false => rw [revise_of_not_reaches h, revise_of_not_reaches (hkept.trans h)]
    | true =>
      obtain ⟨x, news, -, hfields, -, hallows⟩ := reaches_iff.mp h
      rw [revise_of_reaches h hfields, revise_of_reaches (hkept.trans h) hfields,
        putFields_editChildren hallows hsome]

/-! ## Two updates -/

section Two

variable {x y : Value} (hne : y ≠ x) (fields news v : Value)

include hne

theorem not_reaches_of_reaches (h : reaches x fields v = true) : reaches y news v = false := by
  rw [Bool.eq_false_iff]
  intro hother
  exact hne ((id_of_reaches hother).symm.trans (id_of_reaches h))

theorem reaches_revise : reaches y news (revise x fields v) = reaches y news v := by
  cases h : reaches x fields v with
  | false => rw [revise_of_not_reaches h]
  | true =>
    rw [not_reaches_of_reaches hne fields news v h, Bool.eq_false_iff]
    intro hother
    have hy := id_of_reaches hother
    rw [(revision_revise x fields).id] at hy
    exact hne (hy.symm.trans (id_of_reaches h))

/-- Fields that are put into different nodes can be put there in any order. -/
theorem revise_comm : revise x fields (revise y news v) = revise y news (revise x fields v) := by
  cases h : reaches x fields v with
  | true =>
    have hother := not_reaches_of_reaches hne fields news v h
    have hstill := (reaches_revise hne fields news v).trans hother
    rw [revise_of_not_reaches hother, revise_of_not_reaches hstill]
  | false =>
    have hstill := (reaches_revise hne.symm news fields v).trans h
    rw [revise_of_not_reaches h, revise_of_not_reaches hstill]

end Two

/-! ## Revisions of one node -/

section OneNode

variable {f : Value → Value}

theorem mapNodes_of_children {v : Value} (h : v.children.map (mapNodes f) = v.children) :
    mapNodes f v = f v := by
  cases hlist : v.childList? with
  | none => exact mapNodes_of_none hlist
  | some items =>
    have hsome : v.childList?.isSome := Option.isSome_iff_exists.mpr ⟨items, hlist⟩
    have hself : editChildren (fun _ => v.children.map (mapNodes f)) v = v :=
      (editChildren_congr h).trans (editChildren_self hsome)
    rw [mapNodes_of_isSome hsome, hself]

variable (hf : Revision f)

include hf

theorem mapNodes_of_not_isObject {v : Value} (h : v.isObject = false) : mapNodes f v = v := by
  have hnone : v.childList? = none := by
    cases v with
    | object fields => cases h
    | _ => rfl
  rw [mapNodes_of_none hnone, hf.other v h]

/-- Among children only objects can be changed by a revision. -/
theorem map_mapNodes_of_objects {vs : List Value}
    (h : ∀ c ∈ vs, c.isObject = true → mapNodes f c = c) : vs.map (mapNodes f) = vs := by
  have hchild : ∀ c ∈ vs, mapNodes f c = c := by
    intro c hc
    cases ho : c.isObject with
    | true => exact h c hc ho
    | false => exact mapNodes_of_not_isObject hf ho
  exact (List.map_congr_left hchild).trans (List.map_id' _)

/-- A tree whose nodes are not changed by a revision stays as it is. -/
theorem mapNodes_eq_self {v : Value} (h : ∀ n ∈ nodes v, f n = n) : mapNodes f v = v := by
  induction v using Value.children_induction with
  | step v ih =>
    have hchildren : v.children.map (mapNodes f) = v.children :=
      map_mapNodes_of_objects hf fun c hc ho =>
        ih c hc fun n hn => h n (mem_nodes_of_child hc ho hn)
    rw [mapNodes_of_children hchildren, h v (self_mem_nodes v)]

theorem map_mapNodes_eq_self {vs : List Value} (h : ∀ n ∈ nodesOf vs, f n = n) :
    vs.map (mapNodes f) = vs :=
  map_mapNodes_of_objects hf fun c hc ho =>
    mapNodes_eq_self hf fun n hn => h n (mem_nodesOf.mpr ⟨c, hc, ho, hn⟩)

/-- A revision that takes no node below the other children is a change of one child. -/
theorem map_mapNodes_eq_modify {vs : List Value} {c : Value} {i : Nat} {g : Value → Value}
    (hc : vs[i]? = some c) (hself : mapNodes f c = g c)
    (hbefore : ∀ n ∈ nodesOf (vs.take i), f n = n)
    (hafter : ∀ n ∈ nodesOf (vs.drop (i + 1)), f n = n) : vs.map (mapNodes f) = vs.modify i g := by
  conv_lhs => rw [eq_take_cons_drop hc]
  rw [modify_eq_take_cons_drop hc, List.map_append, List.map_cons, hself,
    map_mapNodes_eq_self hf hbefore, map_mapNodes_eq_self hf hafter]

/-- A revision that only one node takes is an edit at its address. -/
theorem mapNodes_eq_editAt {g : Value → Value} {root n : Value} {a : List Nat}
    (hat : nodeAt? root a = some n) (ho : n.isObject)
    (hdistinct : ((nodes root).map fun m => m.field "id").Nodup) (hn : f n = g n)
    (hothers : ∀ m ∈ nodes root, m.field "id" ≠ n.field "id" → f m = m) :
    mapNodes f root = editAt a g root := by
  induction a generalizing root with
  | nil =>
    cases hat
    rw [nodes_eq, List.map_cons, List.nodup_cons] at hdistinct
    rw [editAt, ← hn]
    refine mapNodes_of_children (map_mapNodes_eq_self hf fun m hm => hothers m ?_ fun hid => ?_)
    · rw [nodes_eq]
      exact List.mem_cons_of_mem _ hm
    · exact hdistinct.1 (hid ▸ List.mem_map_of_mem hm)
  | cons i rest ih =>
    obtain ⟨c, hc, hrest⟩ := nodeAt?_cons hat
    have hmem : c ∈ root.children := List.mem_of_getElem? hc
    have hco : c.isObject = true := isObject_of_nodeAt? hrest ho
    obtain ⟨hbelow, hrootId, hbeforeId, hafterId⟩ :=
      apart_of_distinct hc hco hdistinct (mem_nodes_of_nodeAt? hrest ho)
    obtain ⟨hroot, hbefore, hchild, hafter⟩ := forall_mem_nodes_split hc hco hothers
    have hself : mapNodes f c = editAt rest g c := ih hrest hbelow hchild
    have hsome := isSome_childList?_of_mem hmem
    rw [mapNodes_of_isSome hsome, hf.editChildren _ _ hsome, hroot hrootId]
    exact editChildren_congr (map_mapNodes_eq_modify hf hc hself
      (fun m hm => hbefore m hm (hbeforeId m hm)) fun m hm => hafter m hm (hafterId m hm))

end OneNode

/-! ## Updates -/

section Updates

variable {root : Value} (h : WellFormed root)

include h

/-- Only a text leads to a node, and that is the name of the node. -/
theorem WellFormed.exists_name {id : Value} {v : Visit} (hplaced : v.Placed root)
    (hsame : v.id.same id = true) :
    v.node ∈ nodes root ∧ ∃ x, id = .text x ∧ v.node.field "id" = .text x := by
  have hmem := hplaced.mem_nodes
  obtain ⟨x, hid, -⟩ := (h.sound _ hmem).named
  rw [Visit.id, hid, Value.text_same_iff] at hsame
  exact ⟨hmem, x, hsame, hid⟩

/-- The node that takes fields is the one that is found under their identifier. -/
theorem WellFormed.any_reaches {id : Value} {news : Fields} {found : Option Visit}
    (hfound : locate root id = .ok found) :
    (nodes root).any (reaches id (.object news)) = found.any fun v => allowsFields v.node news := by
  rw [Bool.eq_iff_iff, List.any_eq_true, Option.any_eq_true]
  constructor
  · rintro ⟨n, hn, hreaches⟩
    obtain ⟨x, _, rfl, hfields, hid, hallows⟩ := reaches_iff.mp hreaches
    cases hfields
    obtain ⟨v, hv, rfl⟩ := h.locate_eq_some hn hid
    rw [hv] at hfound
    cases hfound
    exact ⟨v, rfl, hallows⟩
  · rintro ⟨v, rfl, hallows⟩
    obtain ⟨hplaced, hsame⟩ := locate_eq hfound
    obtain ⟨hmem, x, rfl, hid⟩ := h.exists_name hplaced hsame
    exact ⟨v.node, hmem, reaches_iff.mpr ⟨x, news, rfl, rfl, hid, hallows⟩⟩

/-- An update revises the tree if a node is there that takes the fields, and is refused if not. -/
theorem WellFormed.update_eq_ite (id fields : Value) :
    Tree.update root id fields = .ok (if (nodes root).any (reaches id fields) then
      some (mapNodes (revise id fields) root) else none) := by
  cases fields with
  | object news =>
    obtain ⟨found, hfound⟩ := h.exists_locate id
    rw [h.any_reaches hfound, Tree.update, hfound]
    cases found with
    | none => rfl
    | some v =>
      obtain ⟨hplaced, hsame⟩ := locate_eq hfound
      obtain ⟨-, x, rfl, hid⟩ := h.exists_name hplaced hsame
      cases hallows : allowsFields v.node news with
      | false => simp [hallows, bind, Except.bind, pure, Except.pure]
      | true =>
        have hreaches : reaches (.text x) (.object news) v.node = true :=
          reaches_iff.mpr ⟨x, news, rfl, rfl, hid, hallows⟩
        have hedit : mapNodes (revise (.text x) (.object news)) root =
            editAt v.address (putFields news) root := by
          refine mapNodes_eq_editAt (revision_revise _ _) hplaced.node hplaced.isObject h.distinct
            (revise_of_reaches hreaches rfl) fun m _ hne => ?_
          refine revise_of_not_reaches (Bool.eq_false_iff.mpr fun hm => hne ?_)
          rw [id_of_reaches hm, hid]
        simp [hallows, hedit, bind, Except.bind, pure, Except.pure]
  | _ =>
    rw [List.any_eq_false.mpr fun n _ => ?_]
    · rfl
    · rw [Bool.not_eq_true, reaches_of_not_isObject rfl]

end Updates

end PageBuilder.Tree
