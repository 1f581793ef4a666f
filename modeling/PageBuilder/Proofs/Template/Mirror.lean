import PageBuilder.Preview
import PageBuilder.Proofs.Tree.Alike
import PageBuilder.Proofs.Value.Written

/-!
The preview of a page mirrors the tree, node by node.

* `StandsFor`: a template and what is written for its value;
* `Shows`: what the preview has for one node;
* `shows_of_node`: the preview of a node shows it;
* `node_mirrors`: the preview of a tree is walked like the tree without what is no node in it, and
  shows each node where it stands.
-/

namespace PageBuilder

/-! ## Fields besides -/

/-- The fields besides those of some names, in order. -/
def Fields.besides (names : List String) (fields : Fields) : Fields :=
  fields.filter fun f => !names.any fun name => f.1.alike (.text name)

namespace Fields

variable {names : List String} {name : String} (fields : Fields)

theorem besides_set (h : name ∈ names) (v : Value) :
    besides names (set fields name v) = besides names fields := by
  have hnamed : (names.any fun other => (Key.text name).alike (.text other)) = true :=
    List.any_eq_true.mpr ⟨name, h, (Key.alike_text_iff _ _).mpr rfl⟩
  unfold besides set
  induction fields with
  | nil => simp [put, hnamed]
  | cons field rest ih =>
    obtain ⟨k, w⟩ := field
    unfold put
    split
    · rename_i hk
      obtain rfl := (Key.alike_text_iff k name).mp hk
      simp [hnamed]
    · rw [List.filter_cons, List.filter_cons, ih]

theorem get?_besides (h : name ∉ names) : get? (besides names fields) name = get? fields name := by
  unfold get? besides
  induction fields with
  | nil => rfl
  | cons field rest ih =>
    obtain ⟨k, w⟩ := field
    by_cases hk : k = .text name
    · subst hk
      have hother : (names.any fun other => (Key.text name).alike (.text other)) = false := by
        rw [List.any_eq_false]
        intro other hmem halike
        cases (Key.alike_text_iff _ _).mp halike
        exact h hmem
      simp [hother, find?, Key.alike_text_iff]
    · rw [List.filter_cons, find?, if_neg (mt (Key.alike_text_iff k name).mp hk), ← ih]
      split
      · rw [find?, if_neg (mt (Key.alike_text_iff k name).mp hk)]
      · rfl

theorem get?_besides_of_mem (h : name ∈ names) : get? (besides names fields) name = none := by
  unfold get? besides
  induction fields with
  | nil => rfl
  | cons field rest ih =>
    obtain ⟨k, w⟩ := field
    rw [List.filter_cons]
    split
    · rename_i hk
      have hne : ¬ k.alike (.text name) = true := fun halike => by
        rw [List.any_eq_true.mpr ⟨name, h, halike⟩] at hk
        cases hk
      rw [find?, if_neg hne, ih]
    · exact ih

theorem besides_besides : besides names (besides names fields) = besides names fields := by
  rw [besides, besides, List.filter_filter]
  exact List.filter_congr fun f _ => Bool.and_self _

/-- Sets a field if there is a value for it. -/
def setIfAny (fields : Fields) (name : String) (v? : Option Value) : Fields :=
  v?.elim fields (set fields name)

theorem besides_setIfAny (h : name ∈ names) (v? : Option Value) :
    besides names (setIfAny fields name v?) = besides names fields := by
  cases v? with
  | none => rfl
  | some v => exact besides_set fields h v

theorem get?_setIfAny (h : get? fields name = none) (v? : Option Value) :
    get? (setIfAny fields name v?) name = v? := by
  cases v? with
  | none => exact h
  | some v => exact get?_set fields name v

theorem get?_setIfAny_of_ne {other : String} (hne : other ≠ name) (v? : Option Value) :
    get? (setIfAny fields name v?) other = get? fields other := by
  cases v? with
  | none => rfl
  | some v => exact get?_set_of_ne fields v hne

end Fields

namespace Preview

open Value (Cleaned Part)

/-! ## What is shown of a node -/

/-- The names of the fields that a preview has its own values for. -/
def shownNames : List String := ["props", "label", "children"]

/-- The fields of a node that are carried over. -/
def others (v : Value) : Fields := Fields.besides shownNames (v.fields?.getD [])

/-- What is written for the value of a template. -/
def StandsFor (context template written : Value) : Prop :=
  ∃ v, Template.evaluate context template = .ok v ∧ Cleaned v written

/-- What the preview has for a node: the other fields as they are, the properties under the same
keys in the same order, a label if the node has one, and a child list if the node has one. No value
in the properties and the label is the marker or a sequence of fixed length. -/
structure Shows (context n m : Value) : Prop where
  others_eq : others m = others n
  props : ∃ made, m.get? "props" = some (.object made) ∧
    List.Forall₂ (fun f g => g.1 = f.1 ∧ StandsFor context f.2 g.2)
      (((n.field "props").fields?).getD []) made
  label : Option.Rel (StandsFor context) (n.get? "label") (m.get? "label")
  children : m.get? "children" = n.childList?.map fun _ => .list m.children
  cleaned : ∀ name ∈ ["props", "label"], ∀ w, Part w (m.field name) →
    w ≠ .missing ∧ ∀ items, w ≠ .tuple items

section Shows

variable {context : Value}

theorem get?_others (v : Value) {name : String} (h : name ∉ shownNames) :
    Fields.get? (others v) name = v.get? name := by
  cases v with
  | object fields => exact Fields.get?_besides fields h
  | _ => rfl

/-- Every other field of a node is shown as it is. -/
theorem Shows.get?_eq {n m : Value} (h : Shows context n m) {name : String}
    (hname : name ∉ shownNames) : m.get? name = n.get? name := by
  rw [← get?_others m hname, h.others_eq, get?_others n hname]

theorem Shows.field_eq {n m : Value} (h : Shows context n m) {name : String}
    (hname : name ∉ shownNames) : m.field name = n.field name := by
  rw [Value.field_eq, Value.field_eq, h.get?_eq hname]

/-- What is shown of a node does not depend on which of its children are no nodes. -/
theorem Shows.nodesOnly {n m : Value} (h : Shows context n m) :
    Shows context (Tree.nodesOnly n) m := by
  have hchildren : ((Tree.nodesOnly n).childList?.map fun _ => Value.list m.children) =
      n.childList?.map fun _ => .list m.children := by
    have hsome := Tree.isSome_childList?_nodesOnly n
    cases hn : n.childList? <;> cases hn' : (Tree.nodesOnly n).childList? <;>
      simp_all
  refine ⟨?_, ?_, ?_, h.children.trans hchildren.symm, h.cleaned⟩
  all_goals
    rcases Tree.nodesOnly_eq n with heq | ⟨fields, items, rfl, heq⟩
  · rw [heq]
    exact h.others_eq
  · rw [heq, h.others_eq]
    exact (Fields.besides_set fields (by decide) _).symm
  · rw [heq]
    exact h.props
  · rw [heq, Value.field, Fields.field_set_of_ne _ _ (by decide)]
    exact h.props
  · rw [heq]
    exact h.label
  · rw [heq]
    have hlabel := h.label
    rw [Value.get?, Value.fields?, Option.bind_some] at hlabel
    rw [Value.get?, Value.fields?, Option.bind_some, Fields.get?_set_of_ne _ _ (by decide)]
    exact hlabel

/-! ## Evaluation -/

theorem evaluateFields_eq_ok {fields made : Fields}
    (h : Template.evaluateFields context fields = .ok made) :
    List.Forall₂ (fun f g => g.1 = f.1 ∧ Template.evaluate context f.2 = .ok g.2) fields made := by
  induction fields generalizing made with
  | nil =>
    cases h
    exact .nil
  | cons f rest ih =>
    obtain ⟨v, hv, h⟩ := bind_eq_ok_iff.mp h
    obtain ⟨others, hothers, h⟩ := bind_eq_ok_iff.mp h
    cases h
    exact .cons ⟨rfl, hv⟩ (ih hothers)

theorem evaluateProps_eq (v : Value) :
    Template.evaluateProps context v = Template.evaluateFields context (v.fields?.getD []) := by
  cases v <;> rfl

theorem StandsFor.of_evaluate {t v : Value} (h : Template.evaluate context t = .ok v) :
    StandsFor context t v.jsonable :=
  ⟨v, h, Value.cleaned_jsonable v⟩

theorem standsFor_of_evaluateProps {v : Value} {made : Fields}
    (h : Template.evaluateProps context v = .ok made) :
    List.Forall₂ (fun f g => g.1 = f.1 ∧ StandsFor context f.2 g.2) (v.fields?.getD [])
      (Fields.jsonable made) := by
  rw [evaluateProps_eq] at h
  refine List.forall₂_map_right_iff.mpr ((evaluateFields_eq_ok h).imp ?_)
  exact fun f g hfg => ⟨hfg.1, .of_evaluate hfg.2⟩

theorem standsFor_map {t? v? : Option Value}
    (h : Option.Rel (fun t v => Template.evaluate context t = .ok v) t? v?) :
    Option.Rel (StandsFor context) t? (v?.map Value.jsonable) := by
  cases h with
  | some hv => exact .some (.of_evaluate hv)
  | none => exact .none

theorem cleaned_jsonable_part {v w : Value} (h : Part w v.jsonable) :
    w ≠ .missing ∧ ∀ items, w ≠ .tuple items := by
  obtain ⟨u, -, rfl⟩ := h.jsonable
  exact ⟨u.jsonable_ne_missing, u.jsonable_ne_tuple⟩

/-! ## Nodes -/

theorem kept_eq (fields : Fields) :
    (fields.filter fun (k, _) => isKept k) = Fields.besides shownNames fields := by
  refine List.filter_congr fun f _ => ?_
  simp [isKept, shownNames, Bool.or_assoc]

/-- The kept fields, then the evaluated properties and the evaluated label, if there is one. -/
theorem shallow_eq_ok {fields shown : Fields} (h : shallow context fields = .ok shown) :
    ∃ (props : Fields) (label? : Option Value),
      Template.evaluateProps context (Fields.field fields "props") = .ok props ∧
      Option.Rel (fun t v => Template.evaluate context t = .ok v) (Fields.get? fields "label")
        label? ∧
      shown = Fields.setIfAny
        (Fields.set (Fields.besides shownNames fields) "props" (Value.object props).jsonable)
        "label" (label?.map Value.jsonable) := by
  unfold shallow at h
  rw [kept_eq] at h
  obtain ⟨props, hprops, h⟩ := bind_eq_ok_iff.mp h
  split at h
  · rename_i hlabel
    cases h
    refine ⟨props, none, hprops, ?_, rfl⟩
    rw [hlabel]
    exact .none
  · rename_i t hlabel
    obtain ⟨v, hv, h⟩ := bind_eq_ok_iff.mp h
    cases h
    refine ⟨props, some v, hprops, ?_, rfl⟩
    rw [hlabel]
    exact .some hv

section Shallow

variable {fields shown : Fields} (h : shallow context fields = .ok shown)

include h

theorem besides_shallow : Fields.besides shownNames shown = Fields.besides shownNames fields := by
  obtain ⟨props, label?, -, -, rfl⟩ := shallow_eq_ok h
  rw [Fields.besides_setIfAny _ (by decide), Fields.besides_set _ (by decide),
    Fields.besides_besides]

theorem props_shallow : ∃ props,
    Template.evaluateProps context (Fields.field fields "props") = .ok props ∧
      Fields.get? shown "props" = some (Value.object props).jsonable := by
  obtain ⟨props, label?, hprops, -, rfl⟩ := shallow_eq_ok h
  exact ⟨props, hprops, by rw [Fields.get?_setIfAny_of_ne _ (by decide), Fields.get?_set]⟩

theorem label_shallow : ∃ label? : Option Value,
    Option.Rel (fun t v => Template.evaluate context t = .ok v) (Fields.get? fields "label")
      label? ∧
      Fields.get? shown "label" = label?.map Value.jsonable := by
  obtain ⟨props, label?, -, hlabel, rfl⟩ := shallow_eq_ok h
  refine ⟨label?, hlabel, Fields.get?_setIfAny _ ?_ _⟩
  rw [Fields.get?_set_of_ne _ _ (by decide)]
  exact Fields.get?_besides_of_mem fields (by decide)

theorem children_shallow : Fields.get? shown "children" = none := by
  obtain ⟨props, label?, -, -, rfl⟩ := shallow_eq_ok h
  rw [Fields.get?_setIfAny_of_ne _ (by decide), Fields.get?_set_of_ne _ _ (by decide)]
  exact Fields.get?_besides_of_mem fields (by decide)

end Shallow

theorem node_eq_ok {v out : Value} (h : node context v = .ok out) :
    ∃ fields shown children, v = .object fields ∧ shallow context fields = .ok shown ∧
      nodes context v.children = .ok children ∧
      out = .object
        (Fields.setIfAny shown "children" (v.childList?.map fun _ => .list children)) := by
  rw [node] at h
  split at h
  · cases h
  · split at h
    · cases h
    · rename_i fields hfields
      obtain ⟨shown, hshown, h⟩ := bind_eq_ok_iff.mp h
      obtain ⟨children, hchildren, h⟩ := bind_eq_ok_iff.mp h
      refine ⟨fields, shown, children, Value.fields?_eq_some hfields, hshown, hchildren, ?_⟩
      split at h
      · rename_i hlist
        cases h
        rw [hlist]
        rfl
      · rename_i hlist
        cases h
        rw [hlist]
        rfl

/-- Child by child: the nodes among the children have their previews, in order. -/
theorem nodes_eq_ok {vs made : List Value} (h : nodes context vs = .ok made) :
    List.Forall₂ (fun v m => node context v = .ok m) (vs.filter Value.isObject) made := by
  induction vs generalizing made with
  | nil =>
    rw [nodes] at h
    cases h
    exact .nil
  | cons v rest ih =>
    rw [nodes] at h
    split at h
    · rename_i ho
      obtain ⟨first, hfirst, h⟩ := bind_eq_ok_iff.mp h
      obtain ⟨others, hothers, h⟩ := bind_eq_ok_iff.mp h
      cases h
      rw [List.filter_cons_of_pos ho]
      exact .cons hfirst (ih hothers)
    · rename_i ho
      rw [List.filter_cons_of_neg ho]
      exact ih h

theorem isObject_of_node {v out : Value} (h : node context v = .ok out) :
    v.isObject = true ∧ out.isObject = true := by
  obtain ⟨fields, shown, children, rfl, -, -, rfl⟩ := node_eq_ok h
  exact ⟨rfl, rfl⟩

/-- The preview of a node has the previews of its children that are nodes. -/
theorem children_of_node {v out : Value} (h : node context v = .ok out) :
    nodes context v.children = .ok out.children ∧
      out.get? "children" = v.childList?.map fun _ => .list out.children := by
  obtain ⟨fields, shown, children, -, hshown, hchildren, rfl⟩ := node_eq_ok h
  have hget := Fields.get?_setIfAny shown (children_shallow hshown)
    (v.childList?.map fun _ => .list children)
  generalize hout : Fields.setIfAny shown "children" _ = out at hget
  have hget : (Value.object out).get? "children" = v.childList?.map fun _ => .list children := hget
  rw [hget]
  cases hlist : v.childList? with
  | none =>
    have hnone : v.children = [] := by rw [Value.children, hlist, Option.getD_none]
    rw [hlist] at hget
    rw [Value.children_eq_nil_of_get? hget, hnone, nodes]
    exact ⟨rfl, rfl⟩
  | some items =>
    rw [hlist] at hget
    rw [Value.children_of_list hget]
    exact ⟨hchildren, rfl⟩

/-- The preview of a node shows it. -/
theorem shows_of_node {v out : Value} (h : node context v = .ok out) : Shows context v out := by
  have hchildren := (children_of_node h).2
  obtain ⟨fields, shown, children, rfl, hshown, -, rfl⟩ := node_eq_ok h
  obtain ⟨props, hprops, hpropsGet⟩ := props_shallow hshown
  obtain ⟨label?, hlabel, hlabelGet⟩ := label_shallow hshown
  generalize hout : Fields.setIfAny shown "children" _ = out at hchildren
  have hget : ∀ name ≠ "children", Fields.get? out name = Fields.get? shown name := by
    intro name hne
    rw [← hout, Fields.get?_setIfAny_of_ne _ hne]
  rw [← hget _ (by decide)] at hpropsGet hlabelGet
  refine ⟨?_, ⟨Fields.jsonable props, ?_, standsFor_of_evaluateProps hprops⟩, ?_, hchildren, ?_⟩
  · show Fields.besides shownNames out = Fields.besides shownNames fields
    rw [← hout, Fields.besides_setIfAny _ (by decide), besides_shallow hshown]
  · rw [Value.jsonable_object] at hpropsGet
    exact hpropsGet
  · show Option.Rel (StandsFor context) (Fields.get? fields "label") (Fields.get? out "label")
    rw [hlabelGet]
    exact standsFor_map hlabel
  · intro name hname w hw
    rw [Value.field, Fields.field] at hw
    simp only [List.mem_cons, List.not_mem_nil, or_false] at hname
    rcases hname with rfl | rfl
    · rw [hpropsGet] at hw
      exact cleaned_jsonable_part hw
    · rw [hlabelGet] at hw
      cases label? with
      | some v => exact cleaned_jsonable_part hw
      | none => exact cleaned_jsonable_part (v := .null) hw

/-! ## Trees -/

/-- A tree without what is no node, and the preview of the tree. -/
def Previewed (context n m : Value) : Prop :=
  ∃ v, n = Tree.nodesOnly v ∧ node context v = .ok m

theorem previewed_passesDown : Tree.PassesDown (Previewed context) := by
  rintro n m ⟨v, rfl, h⟩
  obtain ⟨ho, hm⟩ := isObject_of_node h
  refine ⟨hm.trans ((Tree.isObject_nodesOnly v).trans ho).symm, ?_⟩
  rw [Tree.children_nodesOnly, List.forall₂_map_left_iff]
  exact (nodes_eq_ok (children_of_node h).1).imp fun c d hcd => ⟨c, rfl, hcd⟩

/-- Whenever there is a preview, it is walked like the tree without the children that are no nodes:
at each address there is what is shown of the node that stands there, below what is shown of its
parent. Identifiers and types are met in the same order. -/
theorem node_mirrors {root out : Value} (h : node context root = .ok out) :
    ∃ visits shown, Tree.walk (Tree.nodesOnly root) = .ok visits ∧ Tree.walk out = .ok shown ∧
      visits.map Tree.Visit.node = (Tree.nodes root).map Tree.nodesOnly ∧
      List.Forall₂ (Tree.Visit.Alike (Shows context)) visits shown ∧
      (Tree.nodes out).map (fun m => (m.field "id", m.field "type")) =
        (Tree.nodes root).map fun n => (n.field "id", n.field "type") := by
  obtain ⟨visits, hvisits⟩ : ∃ visits, Tree.walk (Tree.nodesOnly root) = .ok visits :=
    ⟨_, if_pos ((Tree.isObject_nodesOnly root).trans (isObject_of_node h).1)⟩
  obtain ⟨shown, hshown, halike⟩ :=
    Tree.walk_alike previewed_passesDown ⟨root, rfl, h⟩ hvisits
  have hnodes := (Tree.map_node_walk hvisits).trans (Tree.nodes_nodesOnly root)
  have hshows : List.Forall₂ (Tree.Visit.Alike (Shows context)) visits shown := by
    refine halike.imp fun v w hvw => hvw.mono ?_
    rintro n m ⟨u, rfl, hu⟩
    exact (shows_of_node hu).nodesOnly
  refine ⟨visits, shown, hvisits, hshown, hnodes, hshows, ?_⟩
  have hread := Tree.map_node_alike (f := fun m => (m.field "id", m.field "type"))
    (fun n m hnm => congrArg₂ Prod.mk (hnm.field_eq (by decide)) (hnm.field_eq (by decide))) hshows
  rw [Tree.map_node_walk hshown, hnodes, List.map_map] at hread
  refine hread.trans (List.map_congr_left fun n _ => ?_)
  exact congrArg₂ Prod.mk (Tree.field_nodesOnly (by decide) n) (Tree.field_nodesOnly (by decide) n)

end Shows

/-- A context with a sequence of fixed length that holds the marker. -/
def unevenContext : Value := .ofFields [("pair", .tuple [.int 1, .missing])]

/-- A page with a label that leads nowhere, a child that is no node, and one whose properties are no
object and whose child list is none. -/
def unevenPage : Value := .ofFields [
  ("id", .text "root"), ("type", .text "page"), ("label", .text "\x7b\x7b gone \x7d\x7d"),
  ("props", .ofFields [("size", .text "\x7b\x7b pair \x7d\x7d")]),
  ("children", .list [.int 5,
    .ofFields [("id", .text "a"), ("props", .int 7), ("children", .null)]])]

def unevenPreview : Value := .ofFields [
  ("id", .text "root"), ("type", .text "page"),
  ("props", .ofFields [("size", .list [.int 1, .null])]), ("label", .null),
  ("children", .list [.ofFields [("id", .text "a"), ("props", .object [])]])]

theorem node_mirrors_uneven : node unevenContext unevenPage = .ok unevenPreview ∧
    ∃ visits shown, Tree.walk (Tree.nodesOnly unevenPage) = .ok visits ∧
      Tree.walk unevenPreview = .ok shown ∧
      List.Forall₂ (Tree.Visit.Alike (Shows unevenContext)) visits shown := by
  have hnode : node unevenContext unevenPage = .ok unevenPreview := by cbv
  obtain ⟨visits, shown, hvisits, hshown, -, halike, -⟩ := node_mirrors hnode
  exact ⟨hnode, visits, shown, hvisits, hshown, halike⟩

/-- A context with an object in which the marker names a field, and a text that shows it. -/
def oddContext : Value := .ofFields [("x", .object [(.atom .missing, .int 1)])]

def oddText : Value := .ofFields [
  ("id", .text "a"), ("type", .text "text"), ("label", .text "\x7b\x7b x \x7d\x7d")]

/-- A marker that names a field is shown. -/
theorem exists_marker_shown : ∃ out fields, node oddContext oddText = .ok out ∧
    Part (.object fields) (out.field "label") ∧ ∃ f ∈ fields, f.1 = .atom .missing := by
  have hnode : node oddContext oddText = .ok (.ofFields [("id", .text "a"), ("type", .text "text"),
    ("props", .object []), ("label", .object [(.atom .missing, .int 1)])]) := by cbv
  exact ⟨_, _, hnode, .whole, _, List.mem_cons_self .., rfl⟩

end Preview

end PageBuilder
