import PageBuilder.Guest
import PageBuilder.Proofs.Tree.Settle

/-!
One turn of a node that is settled in place.

* `identify_alike`: nodes get the same identifier if they can keep the same one, or none their own;
* `Turned`: what a node is made to in its turn, beside what it was in the beginning;
* `exists_turned`: a fit node is made to that, in its first turn or in a later one;
* `settleBelow_value`: what is stored of the value of a node.
-/

namespace PageBuilder

open PageBuilder.Fresh (childListed? entered field_entered get?_entered identify identify_of_kept
  id_entered kept? kept?_eq_some_iff settleAll settleBelow withProps)
open PageBuilder.Tree (editChildren)

theorem mapM_eq_some_iff {α β : Type} {f : α → Option β} {xs : List α} {ys : List β} :
    xs.mapM f = some ys ↔ List.Forall₂ (fun x y => f x = some y) xs ys := by
  induction xs generalizing ys with
  | nil => simp [eq_comm]
  | cons x rest ih =>
    cases ys with
    | nil => simp [List.mapM_cons, Option.bind_eq_some_iff]
    | cons y ys => simp [List.mapM_cons, List.forall₂_cons, Option.bind_eq_some_iff, ih]

/-! ## Fields -/

theorem withProps_set_children {fields : Fields} (h : (Fields.get? fields "children").isSome)
    (v : Value) : withProps (Fields.set fields "children" v) =
      Fields.set (withProps fields) "children" v := by
  unfold withProps
  rw [Fields.field_set_of_ne _ _ (by decide)]
  split
  · rfl
  · exact Fields.put_set_comm h (by simp) v _

theorem entered_set_children {fields : Fields} (h : (Fields.get? fields "children").isSome)
    (id : String) (v : Value) : entered id (Fields.set fields "children" v) =
      Fields.set (entered id fields) "children" v := by
  have hcomm : Fields.set (Fields.set fields "children" v) "id" (.text id) =
      Fields.set (Fields.set fields "id" (.text id)) "children" v :=
    Fields.put_set_comm h (by simp) v _
  rw [entered, hcomm, withProps_set_children, entered]
  rwa [Fields.get?_set_of_ne _ _ (by decide)]

/-! ## Cells -/

namespace Cell

variable {c : Cell} {items : List Value}

theorem isSome_of_hasList (h : c.hasList = true) : (Fields.get? c.fields "children").isSome := by
  obtain ⟨items, hitems⟩ := Option.isSome_iff_exists.mp h
  rw [show Fields.get? c.fields "children" = some (.list items) from
    (Value.childList?_eq_some_iff _ items).mp hitems]
  rfl

theorem value_of_hasList (h : c.hasList = true) :
    c.value items = .object (Fields.set c.fields "children" (.list items)) := by
  rw [value, if_pos h]

theorem value_of_unlisted (h : c.hasList = false) : c.value items = .object c.fields := by
  rw [value, if_neg (by simp [h])]

theorem field_value {name : String} (hne : name ≠ "children") :
    (c.value items).field name = Fields.field c.fields name := by
  cases h : c.hasList with
  | false => rw [value_of_unlisted h, Value.field]
  | true => rw [value_of_hasList h, Value.field, Fields.field_set_of_ne _ _ hne]

theorem kind?_value : (c.value items).kind? = (Value.object c.fields).kind? := by
  rw [Value.kind?, field_value (by decide), Value.kind?, Value.field]

theorem childList?_value (h : c.hasList = true) : (c.value items).childList? = some items := by
  rw [value_of_hasList h, Value.childList?_eq_some_iff]
  exact Fields.get?_set ..

/-- The children of a node are the values of what it has listed. -/
theorem children_value (h : items.length = c.listed.length) : (c.value items).children = items := by
  cases hc : c.hasList with
  | true => rw [Value.children, childList?_value hc, Option.getD_some]
  | false =>
    rw [listed, if_neg (by simp [hc])] at h
    obtain rfl := List.length_eq_zero_iff.mp h
    have hnone : (Value.object c.fields).childList? = none := by simpa [hasList] using hc
    rw [value_of_unlisted hc, Value.children, hnone, Option.getD_none]

theorem hasList_set (fields : Fields) (items : List Value) (members : List Member) :
    (mk (Fields.set fields "children" (.list items)) members).hasList = true := by
  have hlist : (Value.object (Fields.set fields "children" (.list items))).childList? =
      some items := by
    rw [Value.childList?_eq_some_iff]
    exact Fields.get?_set ..
  rw [hasList, hlist]
  rfl

theorem taken_subset : c.taken ⊆ c.listed := by
  unfold taken
  split
  · exact List.Subset.refl _
  · exact List.nil_subset _

theorem hasList_of_null (h : (Fields.field c.fields "children").isNull = true) :
    c.hasList = false := by
  have hnone : (Value.object c.fields).childList? = none := Value.childList?_of_null h
  rw [hasList, hnone]
  rfl

end Cell

/-! ## One turn -/

section Identifiers

variable {source : IdSource} {kind : ComponentKind} {fields others : Fields} {a : Allotment}

/-- What can not be kept can not be kept later on. -/
theorem kept?_mono {used more : List String} {v : Value} (h : kept? used v = none)
    (hsub : used ⊆ more) : kept? more v = none := by
  rw [Option.eq_none_iff_forall_ne_some] at h ⊢
  intro id hid
  obtain ⟨hown, hne, hnew⟩ := kept?_eq_some_iff.mp hid
  exact h id (kept?_eq_some_iff.mpr ⟨hown, hne, fun hmem => hnew (hsub hmem)⟩)

theorem kept?_of_mem {used : List String} {id : String} (h : id ∈ used) :
    kept? used (.text id) = none := by
  rw [Option.eq_none_iff_forall_ne_some]
  intro id' hid
  obtain ⟨hown, -, hnew⟩ := kept?_eq_some_iff.mp hid
  cases hown
  exact hnew h

variable (source kind) in
/-- Two nodes of which both can keep the same identifier, or none can keep its own, get the same
one, and then the first can not keep its own any more. -/
theorem identify_alike
    (h : kept? a.used (Fields.field others "id") = kept? a.used (Fields.field fields "id")) :
    (∃ id b, id ∉ a.used ∧ b.used = id :: a.used ∧ kept? b.used (Fields.field fields "id") = none ∧
      identify source kind fields a = (.ok (Fields.set fields "id" (.text id)), b) ∧
      identify source kind others a = (.ok (Fields.set others "id" (.text id)), b)) ∨
    ∃ b, identify source kind fields a = (.error .drawsExhausted, b) ∧
      identify source kind others a = (.error .drawsExhausted, b) := by
  cases hkept : kept? a.used (Fields.field fields "id") with
  | some id =>
    obtain ⟨hown, -, hnew⟩ := kept?_eq_some_iff.mp hkept
    refine .inl ⟨id, { a with used := id :: a.used }, hnew, rfl, ?_, identify_of_kept hkept,
      identify_of_kept (h.trans hkept)⟩
    rw [hown]
    exact kept?_of_mem (List.mem_cons_self ..)
  | none =>
    simp only [identify, h, hkept]
    rcases hdraw : Fresh.draw source kind a.used (Fresh.tries source a.used) a.drawn with
      ⟨_ | id, drawn⟩
    · exact .inr ⟨_, rfl, rfl⟩
    · obtain ⟨-, -, hnew⟩ := Fresh.draw_eq hdraw
      exact .inl ⟨id, ⟨id :: a.used, drawn⟩, hnew, rfl,
        kept?_mono hkept (List.subset_cons_self ..), rfl, rfl⟩

end Identifiers

/-- A node after a turn, beside what it was in the beginning: of the same kind, under an identifier,
and with what is taken in with it for all that it has listed. -/
structure Turned (c₀ c : Cell) (id : String) : Prop where
  typed : Fields.field c.fields "type" = Fields.field c₀.fields "type"
  named : Fields.field c.fields "id" = .text id
  listed : c.listed = c₀.taken
  hasList : (Value.object c₀.fields).isContainer → c.hasList
  fit : (Value.object c₀.fields).isContainer →
    (Fields.field c₀.fields "children").isNull ∨ c₀.hasList

section Turned

variable {c₀ c : Cell} {kind : ComponentKind} {id : String}

theorem hasList_entered : (Cell.mk (entered id c.fields) c.members).hasList = c.hasList := by
  have hget : Fields.get? (entered id c.fields) "children" = Fields.get? c.fields "children" :=
    get?_entered (by decide) (by decide)
  simp only [Cell.hasList, Value.childList?, hget]

theorem listed_entered : (Cell.mk (entered id c.fields) c.members).listed = c.listed := by
  rw [Cell.listed, hasList_entered, Cell.listed]

theorem childListed?_of_leaf (hleaf : kind.isContainer = false) :
    childListed? kind c = some ⟨Fields.erase c.fields "children", []⟩ := by
  rw [childListed?, hleaf]
  rfl

theorem childListed?_of_null (hc : kind.isContainer = true)
    (hnull : (Fields.field c.fields "children").isNull = true) :
    childListed? kind c = some ⟨Fields.set c.fields "children" (.list []), []⟩ := by
  simp [childListed?, hc, hnull]

theorem childListed?_of_hasList (hc : kind.isContainer = true) (hlist : c.hasList = true) :
    childListed? kind c = some c := by
  have hnull : (Fields.field c.fields "children").isNull = false := by
    rw [← Bool.not_eq_true]
    intro hnull
    rw [Cell.hasList_of_null hnull] at hlist
    cases hlist
  simp [childListed?, hc, hnull, hlist]

theorem childListed?_of_unfit (hc : kind.isContainer = true)
    (hnull : (Fields.field c.fields "children").isNull = false) (hlist : c.hasList = false) :
    childListed? kind c = none := by
  simp [childListed?, hc, hnull, hlist]

theorem Cell.listed_nil (fields : Fields) : (Cell.mk fields []).listed = [] := by
  unfold listed
  split <;> rfl

/-- What a fit node is made to, in its first turn or in a later one. -/
theorem exists_turned (h : c = c₀ ∨ ∃ before, Turned c₀ c before)
    (htyped : (Value.object c₀.fields).kind? = some kind)
    (hfit : kind.isContainer → (Fields.field c₀.fields "children").isNull ∨ c₀.hasList)
    (id : String) :
    ∃ c', childListed? kind ⟨entered id c.fields, c.members⟩ = some c' ∧ Turned c₀ c' id := by
  have hkind : (Value.object c₀.fields).isContainer = kind.isContainer := Tree.isContainer_eq htyped
  have htype : Fields.field c.fields "type" = Fields.field c₀.fields "type" := by
    rcases h with rfl | ⟨before, h⟩
    · rfl
    · exact h.typed
  have hentered : Fields.field (entered id c.fields) "type" = Fields.field c₀.fields "type" :=
    (field_entered (by decide) (by decide)).trans htype
  cases hc : kind.isContainer with
  | false =>
    refine ⟨_, childListed?_of_leaf hc, ?_, ?_, ?_, ?_, ?_⟩
    · rw [Fields.field_erase_of_ne _ (by decide), hentered]
    · rw [Fields.field_erase_of_ne _ (by decide), id_entered]
    · rw [Cell.listed_nil, Cell.taken, if_neg (by simp [hkind, hc])]
    · simp [hkind, hc]
    · simp [hkind, hc]
  | true =>
    have htaken : c₀.taken = c₀.listed := by rw [Cell.taken, if_pos (hkind.trans hc)]
    by_cases hlist : c.hasList = true
    · have hlisted : c.listed = c₀.taken := by
        rcases h with rfl | ⟨before, h⟩
        · exact htaken.symm
        · exact h.listed
      refine ⟨_, childListed?_of_hasList hc (hasList_entered.trans hlist), hentered, id_entered,
        listed_entered.trans hlisted, fun _ => hasList_entered.trans hlist, fun _ => hfit hc⟩
    · rcases h with rfl | ⟨before, h⟩
      · have hnull := (hfit hc).resolve_right hlist
        have hchildren : Fields.field (entered id c.fields) "children" =
            Fields.field c.fields "children" := field_entered (by decide) (by decide)
        refine ⟨_, childListed?_of_null hc (hchildren ▸ hnull), ?_, ?_, ?_, ?_, fun _ => .inl hnull⟩
        · rw [Fields.field_set_of_ne _ _ (by decide), hentered]
        · rw [Fields.field_set_of_ne _ _ (by decide), id_entered]
        · rw [Cell.listed_nil, htaken, Cell.listed, if_neg hlist]
        · exact fun _ => Cell.hasList_set ..
      · exact absurd (h.hasList (hkind.trans hc)) hlist

end Turned

/-! ## A node and its value -/

section Node

variable {source : IdSource} {c : Cell} {kind : ComponentKind} {id : String} {a b : Allotment}
  {items : List Value}

/-- The values of what is taken in with a node. -/
def Cell.takenOf (c : Cell) (items : List Value) : List Value :=
  if (Value.object c.fields).isContainer then items else []

theorem erase_value {fields : Fields} (h : c.value items = .object fields) :
    Fields.erase (entered id fields) "children" =
      Fields.erase (entered id c.fields) "children" := by
  cases hlist : c.hasList with
  | false =>
    rw [Cell.value_of_unlisted hlist] at h
    cases h
    rfl
  | true =>
    rw [Cell.value_of_hasList hlist] at h
    cases h
    rw [entered_set_children (Cell.isSome_of_hasList hlist), Fields.erase_set]

/-- Of a leaf no children are stored. -/
theorem settleBelow_leaf {fields : Fields} (hvalue : c.value items = .object fields)
    (hleaf : kind.isContainer = false) :
    settleBelow source kind (entered id fields) (c.value items) b =
      (.ok ((Cell.mk (Fields.erase (entered id c.fields) "children") []).value []), b) := by
  have hgone := Fields.get?_erase (entered id c.fields) "children"
  have hlist : (Cell.mk (Fields.erase (entered id c.fields) "children") []).hasList = false := by
    simp [Cell.hasList, Value.childList?, hgone]
  rw [settleBelow, hleaf, Cell.value_of_unlisted hlist, ← erase_value hvalue]
  rfl

/-- Of a container without children an empty list is stored. -/
theorem settleBelow_null {fields : Fields} (hvalue : c.value items = .object fields)
    (hc : kind.isContainer = true) (hnull : (Fields.field c.fields "children").isNull = true) :
    settleBelow source kind (entered id fields) (c.value items) b = (.ok
      ((Cell.mk (Fields.set (entered id c.fields) "children" (.list [])) []).value []), b) := by
  have hlist := Cell.hasList_of_null hnull
  rw [Cell.value_of_unlisted hlist] at hvalue ⊢
  cases hvalue
  rw [settleBelow, hc, if_neg (by decide), Value.field, if_pos hnull,
    Cell.value_of_hasList (Cell.hasList_set ..), Fields.set_set]
  rfl

/-- Of a container with a list for children the list is stored with all that is listed. -/
theorem settleBelow_listed {fields : Fields} (hvalue : c.value items = .object fields)
    (hlength : items.length = c.listed.length) (hc : kind.isContainer = true)
    (hlist : c.hasList = true) :
    settleBelow source kind (entered id fields) (c.value items) b =
      ((settleAll source items b).1.map (Cell.mk (entered id c.fields) c.members).value,
        (settleAll source items b).2) := by
  have hvalued : (c.value items).childList? = some items := Cell.childList?_value hlist
  have hfield : ((c.value items).field "children").isNull = false := by
    rw [Value.field_eq, (Value.childList?_eq_some_iff _ _).mp hvalued]
    rfl
  have hlists : (Cell.mk (entered id c.fields) c.members).hasList = true :=
    hasList_entered.trans hlist
  rw [settleBelow, hc, if_neg (by decide), hfield, if_neg (by decide), hvalued,
    if_neg (by simp), Cell.children_value hlength]
  rw [Cell.value_of_hasList hlist] at hvalue
  cases hvalue
  rcases settleAll source items b with ⟨e | items, b⟩
  · rfl
  · simp only [Except.map, Cell.value_of_hasList hlists, editChildren,
      entered_set_children (Cell.isSome_of_hasList hlist), Fields.set_set]

/-- What is stored of the value of a node: what the node is made to, with what is stored of what is
taken in with it. -/
theorem settleBelow_value {fields : Fields} {c' : Cell} (hvalue : c.value items = .object fields)
    (hlength : items.length = c.listed.length)
    (htyped : (Value.object c.fields).kind? = some kind)
    (hchildren : childListed? kind ⟨entered id c.fields, c.members⟩ = some c') :
    settleBelow source kind (entered id fields) (c.value items) b =
      ((settleAll source (c.takenOf items) b).1.map c'.value,
        (settleAll source (c.takenOf items) b).2) := by
  have hkind : (Value.object c.fields).isContainer = kind.isContainer := Tree.isContainer_eq htyped
  have hentered : Fields.field (entered id c.fields) "children" =
      Fields.field c.fields "children" := field_entered (by decide) (by decide)
  have hnil : settleAll source [] b = (.ok [], b) := by rw [settleAll]
  cases hc : kind.isContainer with
  | false =>
    rw [childListed?_of_leaf hc] at hchildren
    cases hchildren
    rw [settleBelow_leaf hvalue hc, Cell.takenOf, if_neg (by simp [hkind, hc]), hnil]
    rfl
  | true =>
    rw [Cell.takenOf, if_pos (hkind.trans hc)]
    by_cases hnull : (Fields.field c.fields "children").isNull = true
    · have hempty : items = [] := by
        rw [Cell.listed, if_neg (by simp [Cell.hasList_of_null hnull])] at hlength
        exact List.length_eq_zero_iff.mp hlength
      rw [childListed?_of_null hc (by rw [hentered, hnull])] at hchildren
      cases hchildren
      rw [settleBelow_null hvalue hc hnull, hempty, hnil]
      rfl
    · have hlist : c.hasList = true := by
        by_contra hlist
        rw [childListed?_of_unfit hc (by rw [hentered, Bool.eq_false_iff.mpr hnull])
          (hasList_entered.trans (Bool.eq_false_iff.mpr hlist))] at hchildren
        cases hchildren
      rw [childListed?_of_hasList hc (hasList_entered.trans hlist)] at hchildren
      cases hchildren
      exact settleBelow_listed hvalue hlength hc hlist

end Node

end PageBuilder
