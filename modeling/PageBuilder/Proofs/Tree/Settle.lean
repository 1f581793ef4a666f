import PageBuilder.Proofs.Tree.Edits
import PageBuilder.Proofs.Tree.Named
import PageBuilder.Proofs.Value.Plain

/-!
What is inserted: a settled tree is sound, has no page in it, and its names are new ones, all
different, each of which is then in use.

* `Gets`: which identifier a node gets;
* `SettlesBelow`, `Settles`: all that settling a value can come to;
* `settle_named`: the nodes of a settled tree are named one after the other;
* `settle_lasting`: what is kept by what a node is given is kept by settling;
* `settle_of_named`: a tree that needs nothing is settled as it is, and nothing is drawn;
* `WellFormed.insert`: an insertion keeps a tree well-formed.
-/

namespace PageBuilder.Tree

/-- A property of values that is kept by what a node is given when it is stored: an identifier,
properties, and a child list or none. -/
structure Lasting (P : Value → Prop) : Prop where
  children : ∀ {v : Value}, P v → ∀ c ∈ v.children, P c
  id : ∀ {fields : Fields}, P (.object fields) → ∀ id,
    P (.object (Fields.set fields "id" (.text id)))
  props : ∀ {fields : Fields}, P (.object fields) →
    P (.object (Fields.set fields "props" (.object [])))
  childList : ∀ {fields : Fields} {items : List Value}, P (.object fields) → (∀ c ∈ items, P c) →
    P (.object (Fields.set fields "children" (.list items)))
  leaf : ∀ {fields : Fields}, P (.object fields) → P (.object (Fields.erase fields "children"))

end PageBuilder.Tree

namespace PageBuilder.Fresh

open PageBuilder.Tree (editChildren Inner Lasting Named Stored)

/-! ## Identifiers -/

theorem idText_ne (source : IdSource) (kind : ComponentKind) (number : Nat) :
    idText source kind number ≠ "" := by
  intro h
  have := congrArg String.toList h
  simp [idText] at this

/-- An identifier that is in use is drawn again. -/
theorem draw_succ (source : IdSource) (kind : ComponentKind) (used : List String)
    (tries drawn : Nat) :
    draw source kind used (tries + 1) drawn =
      if idText source kind (drawn + 1) ∈ used then draw source kind used tries (drawn + 1)
      else (some (idText source kind (drawn + 1)), drawn + 1) := by
  rw [draw]
  simp only [next, List.contains_iff_mem]

/-- What was drawn for a node is the identifier of some draw and not in use. -/
theorem draw_eq {source : IdSource} {kind : ComponentKind} {used : List String}
    {tries drawn drawn' : Nat} {id : String}
    (h : draw source kind used tries drawn = (some id, drawn')) :
    ∃ number, id = idText source kind number ∧ id ∉ used := by
  induction tries generalizing drawn with
  | zero => cases h
  | succ tries ih =>
    rw [draw_succ] at h
    split at h
    · exact ih h
    · rename_i hnew
      cases h
      exact ⟨drawn + 1, rfl, hnew⟩

theorem kept?_eq_some_iff {used : List String} {v : Value} {id : String} :
    kept? used v = some id ↔ v = .text id ∧ id ≠ "" ∧ id ∉ used := by
  unfold kept?
  split
  · rename_i s
    by_cases hs : (s.isEmpty || used.contains s) = true
    · rw [if_pos hs]
      rw [Bool.or_eq_true, String.isEmpty_iff, List.contains_iff_mem] at hs
      simp only [reduceCtorEq, false_iff]
      rintro ⟨heq, hne, hnew⟩
      cases heq
      exact hs.elim hne hnew
    · rw [if_neg hs]
      rw [Bool.or_eq_true, not_or, String.isEmpty_iff, List.contains_iff_mem] at hs
      constructor
      · intro h
        cases h
        exact ⟨rfl, hs⟩
      · rintro ⟨heq, -⟩
        cases heq
        rfl
  · rename_i hv
    simp only [reduceCtorEq, false_iff]
    rintro ⟨rfl, -⟩
    exact hv id rfl

/-- The identifier that a node gets: its own if that is a text, not empty and not in use, and
otherwise one that is drawn and not in use. -/
inductive Gets (source : IdSource) (kind : ComponentKind) (used : List String) (own : Value) :
    String → Prop where
  | kept {id : String} (isOwn : own = .text id) (ne : id ≠ "") (fresh : id ∉ used) :
      Gets source kind used own id
  | drawn (number : Nat) (unusable : ∀ id, own = .text id → id = "" ∨ id ∈ used)
      (fresh : idText source kind number ∉ used) :
      Gets source kind used own (idText source kind number)

section Gets

variable {source : IdSource} {kind : ComponentKind} {used : List String} {own : Value} {id : String}

theorem Gets.new (h : Gets source kind used own id) : id ∉ used := by
  cases h with
  | kept _ _ hnew => exact hnew
  | drawn _ _ hnew => exact hnew

theorem Gets.ne_empty (h : Gets source kind used own id) : id ≠ "" := by
  cases h with
  | kept _ hne _ => exact hne
  | drawn number _ _ => exact idText_ne source kind number

end Gets

theorem identify_of_kept {source : IdSource} {kind : ComponentKind} {fields : Fields}
    {a : Allotment} {id : String} (h : kept? a.used (Fields.field fields "id") = some id) :
    identify source kind fields a =
      (.ok (Fields.set fields "id" (.text id)), { a with used := id :: a.used }) := by
  rw [identify, h, Fields.set_eq_self (Fields.get?_of_field_text (kept?_eq_some_iff.mp h).1)]

/-- A node is given its identifier, or the draws are exhausted. -/
theorem identify_cases (source : IdSource) (kind : ComponentKind) (fields : Fields)
    (a : Allotment) :
    (∃ id b, Gets source kind a.used (Fields.field fields "id") id ∧ b.used = id :: a.used ∧
      identify source kind fields a = (.ok (Fields.set fields "id" (.text id)), b)) ∨
    ∃ b, identify source kind fields a = (.error .drawsExhausted, b) := by
  cases hkept : kept? a.used (Fields.field fields "id") with
  | some id =>
    obtain ⟨hown, hne, hnew⟩ := kept?_eq_some_iff.mp hkept
    exact .inl ⟨id, { a with used := id :: a.used }, .kept hown hne hnew, rfl,
      identify_of_kept hkept⟩
  | none =>
    rw [identify, hkept]
    simp only
    split
    · exact .inr ⟨_, rfl⟩
    · rename_i id drawn hdraw
      obtain ⟨number, rfl, hnew⟩ := draw_eq hdraw
      refine .inl ⟨_, ⟨_ :: a.used, drawn⟩, .drawn number (fun id hown => ?_) hnew, rfl, rfl⟩
      by_contra hnot
      rw [not_or] at hnot
      rw [kept?_eq_some_iff.mpr ⟨hown, hnot⟩] at hkept
      cases hkept

/-! ## Properties -/

theorem get?_withProps (fields : Fields) {name : String} (hne : name ≠ "props") :
    Fields.get? (withProps fields) name = Fields.get? fields name := by
  unfold withProps
  split
  · rfl
  · exact Fields.get?_set_of_ne fields _ hne

theorem field_withProps (fields : Fields) {name : String} (hne : name ≠ "props") :
    Fields.field (withProps fields) name = Fields.field fields name := by
  rw [Fields.field, get?_withProps fields hne, Fields.field]

@[simp] theorem kind?_withProps (fields : Fields) :
    (Value.object (withProps fields)).kind? = (Value.object fields).kind? := by
  rw [Value.kind?, Value.field, field_withProps fields (by decide), Value.kind?, Value.field]

@[simp] theorem isContainer_withProps (fields : Fields) :
    (Value.object (withProps fields)).isContainer = (Value.object fields).isContainer := by
  rw [Value.isContainer, kind?_withProps, Value.isContainer]

@[simp] theorem isObject_props (fields : Fields) :
    (Fields.field (withProps fields) "props").isObject = true := by
  unfold withProps
  split
  · assumption
  · rw [Fields.field_set]
    rfl

theorem lasting_withProps {P : Value → Prop} (hP : Lasting P) {fields : Fields}
    (h : P (.object fields)) : P (.object (withProps fields)) := by
  unfold withProps
  split
  · exact h
  · exact hP.props h

/-! ## One node -/

/-- The fields of a node that is stored, its children apart: under its identifier, and with an
object for the properties. -/
def entered (id : String) (fields : Fields) : Fields :=
  withProps (Fields.set fields "id" (.text id))

section Entered

variable {fields : Fields} {id : String}

theorem get?_entered {name : String} (hid : name ≠ "id") (hprops : name ≠ "props") :
    Fields.get? (entered id fields) name = Fields.get? fields name := by
  rw [entered, get?_withProps _ hprops, Fields.get?_set_of_ne _ _ hid]

theorem field_entered {name : String} (hid : name ≠ "id") (hprops : name ≠ "props") :
    Fields.field (entered id fields) name = Fields.field fields name := by
  rw [Fields.field, get?_entered hid hprops, Fields.field]

@[simp] theorem id_entered : Fields.field (entered id fields) "id" = .text id := by
  rw [entered, field_withProps _ (by decide), Fields.field_set]

@[simp] theorem kind?_entered :
    (Value.object (entered id fields)).kind? = (Value.object fields).kind? := by
  rw [Value.kind?, Value.field, field_entered (by decide) (by decide), Value.kind?, Value.field]

theorem lasting_entered {P : Value → Prop} (hP : Lasting P) (h : P (.object fields)) :
    P (.object (entered id fields)) :=
  lasting_withProps hP (hP.id h id)

end Entered

/-- A node of a kind that can be inserted, with the identifier that it gets. -/
structure Begun (source : IdSource) (used : List String) (fields : Fields) (kind : ComponentKind)
    (id : String) : Prop where
  typed : (Value.object fields).kind? = some kind
  inner : kind ≠ .page
  gets : Gets source kind used (Fields.field fields "id") id

section Begun

variable {source : IdSource} {used : List String} {fields : Fields} {kind : ComponentKind}
  {id : String} (h : Begun source used fields kind id)

include h

/-- A leaf is stored without the field for children. -/
theorem Begun.leaf (hleaf : kind.isContainer = false) :
    Stored (.object (Fields.erase (entered id fields) "children")) ∧
      Fields.field (Fields.erase (entered id fields) "children") "id" = .text id ∧
      (Value.object (Fields.erase (entered id fields) "children")).children = [] := by
  have hother : ∀ {name : String}, name ≠ "children" →
      Fields.field (Fields.erase (entered id fields) "children") name =
        Fields.field (entered id fields) name :=
    Fields.field_erase_of_ne _
  have hkind : (Value.object (Fields.erase (entered id fields) "children")).kind? = some kind := by
    rw [Value.kind?, Value.field, hother (by decide)]
    exact kind?_entered.trans h.typed
  have hid := (hother (by decide : "id" ≠ "children")).trans id_entered
  have hgone := Fields.get?_erase (entered id fields) "children"
  refine ⟨⟨⟨.ofLeaf rfl ⟨id, hid, h.gets.ne_empty⟩ ?_ ?_ hgone, ?_⟩, ?_⟩, hid,
    Value.children_eq_nil_of_get? (v := .object _) hgone⟩
  · rw [hkind]
    rfl
  · rw [Tree.isContainer_eq hkind, hleaf]
  · rw [hkind]
    exact fun heq => h.inner (Option.some.inj heq)
  · rw [Value.field, hother (by decide)]
    exact isObject_props _

/-- A container is stored with a list of nodes for its children. -/
theorem Begun.container (hc : kind.isContainer = true) {items : List Value}
    (hitems : ∀ c ∈ items, c.isObject) :
    Stored (editChildren (fun _ => items) (.object (entered id fields))) ∧
      (editChildren (fun _ => items) (.object (entered id fields))).field "id" = .text id ∧
      (editChildren (fun _ => items) (.object (entered id fields))).children = items := by
  have hkind : (Value.object (entered id fields)).kind? = some kind :=
    kind?_entered.trans h.typed
  have hnamed : ∃ s, (Value.object (entered id fields)).field "id" = .text s ∧ s ≠ "" :=
    ⟨id, id_entered, h.gets.ne_empty⟩
  refine ⟨⟨⟨.ofContainer rfl hnamed ?_ hitems, ?_⟩, ?_⟩, ?_, Tree.children_editChildren rfl _⟩
  · rw [Tree.isContainer_eq hkind, hc]
  · rw [Tree.kind?_editChildren, hkind]
    exact fun heq => h.inner (Option.some.inj heq)
  · rw [Tree.field_editChildren (by decide)]
    exact isObject_props _
  · rw [Tree.field_editChildren (by decide)]
    exact id_entered

end Begun

/-! ## Settling -/

theorem insertable?_eq_some_iff {v : Value} {kind : ComponentKind} :
    ComponentKind.insertable? v = some kind ↔
      ComponentKind.ofValue? v = some kind ∧ kind ≠ .page := by
  rw [ComponentKind.insertable?, Option.filter_eq_some_iff, bne_iff_ne]

/-- What is stored of a node whose own fields are settled. -/
def settleBelow (source : IdSource) (kind : ComponentKind) (fields : Fields) (v : Value)
    (a : Allotment) : Except Unsettled Value × Allotment :=
  if !kind.isContainer then (.ok (.object (Fields.erase fields "children")), a)
  else if (v.field "children").isNull then (.ok (editChildren (fun _ => []) (.object fields)), a)
  else if v.childList?.isNone then (.error .unfit, a)
  else
    match settleAll source v.children a with
    | (.error e, a) => (.error e, a)
    | (.ok items, a) => (.ok (editChildren (fun _ => items) (.object fields)), a)

/-- All that settling what is below a node can come to. -/
inductive SettlesBelow (source : IdSource) (kind : ComponentKind) (fields : Fields) (v : Value)
    (a : Allotment) : Except Unsettled Value × Allotment → Prop where
  | leaf (leaf : kind.isContainer = false) :
      SettlesBelow source kind fields v a (.ok (.object (Fields.erase fields "children")), a)
  | empty (container : kind.isContainer = true) (missing : (v.field "children").isNull = true) :
      SettlesBelow source kind fields v a (.ok (editChildren (fun _ => []) (.object fields)), a)
  | unlisted (container : kind.isContainer = true)
      (present : (v.field "children").isNull = false) (unlisted : v.childList? = none) :
      SettlesBelow source kind fields v a (.error .unfit, a)
  | listed {items : List Value} {b : Allotment} (container : kind.isContainer = true)
      (listed : v.childList?.isSome) (settled : settleAll source v.children a = (.ok items, b)) :
      SettlesBelow source kind fields v a (.ok (editChildren (fun _ => items) (.object fields)), b)
  | failed {e : Unsettled} {b : Allotment} (container : kind.isContainer = true)
      (listed : v.childList?.isSome) (failed : settleAll source v.children a = (.error e, b)) :
      SettlesBelow source kind fields v a (.error e, b)

theorem settlesBelow (source : IdSource) (kind : ComponentKind) (fields : Fields) (v : Value)
    (a : Allotment) :
    SettlesBelow source kind fields v a (settleBelow source kind fields v a) := by
  unfold settleBelow
  cases hc : kind.isContainer with
  | false => exact .leaf hc
  | true =>
    rw [if_neg (by decide)]
    split
    · rename_i hnull
      exact .empty hc hnull
    · rename_i hnull
      cases hlist : v.childList? with
      | none => exact .unlisted hc (Bool.eq_false_iff.mpr hnull) hlist
      | some _ =>
        have hsome : v.childList?.isSome := Option.isSome_iff_exists.mpr ⟨_, hlist⟩
        rw [if_neg (by simp)]
        split
        · rename_i hall
          exact .failed hc hsome hall
        · rename_i hall
          exact .listed hc hsome hall

/-- What is no object or of no kind that can be inserted is not settled. -/
theorem settle_of_unfit {v : Value} (h : ∀ kind, v.kind? = some kind → kind = .page)
    (source : IdSource) (a : Allotment) : settle source v a = (.error .unfit, a) := by
  unfold settle
  split
  · rfl
  · rename_i fields hfields
    obtain rfl := Value.fields?_eq_some hfields
    split
    · rfl
    · rename_i kind hkind
      obtain ⟨htyped, hne⟩ := insertable?_eq_some_iff.mp hkind
      exact absurd (h kind htyped) hne

/-- A node is given its identifier before its children are seen to. -/
theorem settle_of_kind {fields : Fields} {kind : ComponentKind}
    (htyped : (Value.object fields).kind? = some kind) (hne : kind ≠ .page) (source : IdSource)
    (a : Allotment) : settle source (.object fields) a =
      match identify source kind fields a with
      | (.error e, b) => (.error e, b)
      | (.ok named, b) => settleBelow source kind (withProps named) (.object fields) b := by
  have hkind : ComponentKind.insertable? (Fields.field fields "type") = some kind :=
    insertable?_eq_some_iff.mpr ⟨htyped, hne⟩
  unfold settle
  simp only [Value.fields?, hkind]
  rcases identify_cases source kind fields a with ⟨id, b, -, -, hidentify⟩ | ⟨b, hidentify⟩
  · have hchildren : Fields.field (withProps (Fields.set fields "id" (.text id))) "children" =
        (Value.object fields).field "children" := field_entered (by decide) (by decide)
    simp only [hidentify, hchildren]
    rfl
  · simp only [hidentify]

theorem settle_of_identify {source : IdSource} {fields : Fields} {kind : ComponentKind} {id : String}
    {a b : Allotment} (htyped : (Value.object fields).kind? = some kind) (hne : kind ≠ .page)
    (h : identify source kind fields a = (.ok (Fields.set fields "id" (.text id)), b)) :
    settle source (.object fields) a =
      settleBelow source kind (entered id fields) (.object fields) b := by
  rw [settle_of_kind htyped hne, h, entered]

theorem unfit_or_typed (v : Value) : (∀ kind, v.kind? = some kind → kind = .page) ∨
    ∃ fields kind, v = .object fields ∧ (Value.object fields).kind? = some kind ∧ kind ≠ .page := by
  by_cases hunfit : ∀ kind, v.kind? = some kind → kind = .page
  · exact .inl hunfit
  · rw [not_forall] at hunfit
    obtain ⟨kind, hkind⟩ := hunfit
    obtain ⟨htyped, hne⟩ := Classical.not_imp.mp hkind
    cases v with
    | object fields => exact .inr ⟨fields, kind, rfl, htyped, hne⟩
    | _ => cases htyped

/-- All that settling a value can come to. -/
inductive Settles (source : IdSource) (v : Value) (a : Allotment) :
    Except Unsettled Value × Allotment → Prop where
  | unfit (noKind : ∀ kind, v.kind? = some kind → kind = .page) :
      Settles source v a (.error .unfit, a)
  | exhausted (b : Allotment) : Settles source v a (.error .drawsExhausted, b)
  | leaf {fields : Fields} {kind : ComponentKind} {id : String} {b : Allotment}
      (isObject : v = .object fields) (begun : Begun source a.used fields kind id)
      (inUse : b.used = id :: a.used) (leaf : kind.isContainer = false) :
      Settles source v a (.ok (.object (Fields.erase (entered id fields) "children")), b)
  | empty {fields : Fields} {kind : ComponentKind} {id : String} {b : Allotment}
      (isObject : v = .object fields) (begun : Begun source a.used fields kind id)
      (inUse : b.used = id :: a.used) (container : kind.isContainer = true)
      (missing : (v.field "children").isNull = true) :
      Settles source v a (.ok (editChildren (fun _ => []) (.object (entered id fields))), b)
  | unlisted {kind : ComponentKind} (typed : v.kind? = some kind)
      (container : kind.isContainer = true) (present : (v.field "children").isNull = false)
      (unlisted : v.childList? = none) (b : Allotment) : Settles source v a (.error .unfit, b)
  | listed {fields : Fields} {kind : ComponentKind} {id : String} {b c : Allotment}
      {items : List Value} (isObject : v = .object fields)
      (begun : Begun source a.used fields kind id) (inUse : b.used = id :: a.used)
      (container : kind.isContainer = true) (listed : v.childList?.isSome)
      (settled : settleAll source v.children b = (.ok items, c)) :
      Settles source v a (.ok (editChildren (fun _ => items) (.object (entered id fields))), c)
  | below {kind : ComponentKind} {b c : Allotment} {e : Unsettled} (typed : v.kind? = some kind)
      (container : kind.isContainer = true)
      (failed : settleAll source v.children b = (.error e, c)) : Settles source v a (.error e, c)

theorem settles (source : IdSource) (v : Value) (a : Allotment) :
    Settles source v a (settle source v a) := by
  rcases unfit_or_typed v with hunfit | ⟨fields, kind, rfl, htyped, hne⟩
  · rw [settle_of_unfit hunfit]
    exact .unfit hunfit
  · rcases identify_cases source kind fields a with
      ⟨id, b, hgets, hused, hidentify⟩ | ⟨b, hidentify⟩
    · have hbegun : Begun source a.used fields kind id := ⟨htyped, hne, hgets⟩
      have hbelow := settlesBelow source kind (entered id fields) (.object fields) b
      rw [settle_of_identify htyped hne hidentify]
      generalize settleBelow source kind _ _ b = outcome at hbelow ⊢
      cases hbelow with
      | leaf hleaf => exact .leaf rfl hbegun hused hleaf
      | empty hc hnull => exact .empty rfl hbegun hused hc hnull
      | unlisted hc hpresent hlist => exact .unlisted htyped hc hpresent hlist b
      | listed hc hsome hall => exact .listed rfl hbegun hused hc hsome hall
      | failed hc _ hall => exact .below htyped hc hall
    · rw [settle_of_kind htyped hne, hidentify]
      exact .exhausted b

/-- Settling trees: the first one, then those beside it. -/
theorem settleAll_cons {source : IdSource} {v : Value} {rest items : List Value} {a b : Allotment}
    (h : settleAll source (v :: rest) a = (.ok items, b)) :
    ∃ first others c, settle source v a = (.ok first, c) ∧
      settleAll source rest c = (.ok others, b) ∧ items = first :: others := by
  rw [settleAll] at h
  split at h
  · cases h
  · rename_i first c hfirst
    split at h
    · cases h
    · rename_i others d hothers
      cases h
      exact ⟨first, others, c, hfirst, hothers, rfl⟩

theorem settleAll_nil {source : IdSource} {items : List Value} {a b : Allotment}
    (h : settleAll source [] a = (.ok items, b)) : items = [] ∧ b = a := by
  rw [settleAll] at h
  cases h
  exact ⟨rfl, rfl⟩

theorem settleAll_named {source : IdSource} (vs : List Value)
    (ih : ∀ v ∈ vs, ∀ a item b,
      settle source v a = (.ok item, b) → Named Stored a.used [item] b.used) :
    ∀ a items b, settleAll source vs a = (.ok items, b) → Named Stored a.used items b.used := by
  induction vs with
  | nil =>
    intro a items b h
    obtain ⟨rfl, rfl⟩ := settleAll_nil h
    exact .nil _
  | cons v rest ihRest =>
    intro a items b h
    obtain ⟨first, others, c, hfirst, hothers, rfl⟩ := settleAll_cons h
    have hrest := ihRest (fun w hw => ih w (List.mem_cons_of_mem _ hw)) c others b hothers
    have hv := ih v (List.mem_cons_self ..) a first c hfirst
    exact Named.cons_iff_singleton.mpr ⟨c.used, hv, hrest⟩

/-- A container that is stored with named children is named before them. -/
theorem Begun.named {source : IdSource} {used after : List String} {fields : Fields}
    {kind : ComponentKind} {id : String} {items : List Value}
    (h : Begun source used fields kind id) (hc : kind.isContainer = true)
    (hitems : Named Stored (id :: used) items after) :
    Named Stored used [editChildren (fun _ => items) (.object (entered id fields))] after := by
  obtain ⟨hstored, hid, hchildren⟩ := h.container hc hitems.isObject_of_mem
  refine Named.singleton_iff.mpr ⟨rfl, hstored, id, hid, h.gets.new, ?_⟩
  rw [hchildren]
  exact hitems

/-- The nodes of a settled tree are sound, have properties and are named one after the other. -/
theorem settle_named {source : IdSource} (v : Value) :
    ∀ a item b, settle source v a = (.ok item, b) → Named Stored a.used [item] b.used := by
  induction v using Value.children_induction with
  | step v ih =>
    intro a item b h
    have hsettles := settles source v a
    rw [h] at hsettles
    cases hsettles with
    | leaf _ hbegun hused hleaf =>
      obtain ⟨hstored, hid, hchildren⟩ := hbegun.leaf hleaf
      refine Named.singleton_iff.mpr ⟨rfl, hstored, _, hid, hbegun.gets.new, ?_⟩
      rw [hchildren, hused]
      exact .nil _
    | empty _ hbegun hused hc _ =>
      exact hbegun.named hc (hused ▸ .nil _)
    | listed _ hbegun hused hc _ hall =>
      exact hbegun.named hc (hused ▸ settleAll_named v.children ih _ _ b hall)

/-! ## What lasts -/

theorem settleAll_lasting {P : Value → Prop} {source : IdSource} (vs : List Value)
    (ih : ∀ v ∈ vs, ∀ a item b, settle source v a = (.ok item, b) → P item) :
    ∀ a items b, settleAll source vs a = (.ok items, b) → ∀ item ∈ items, P item := by
  induction vs with
  | nil =>
    intro a items b h
    obtain ⟨rfl, -⟩ := settleAll_nil h
    exact fun item hi => by cases hi
  | cons v rest ihRest =>
    intro a items b h
    obtain ⟨first, others, c, hfirst, hothers, rfl⟩ := settleAll_cons h
    rw [List.forall_mem_cons]
    exact ⟨ih v (List.mem_cons_self ..) a first c hfirst,
      ihRest (fun w hw => ih w (List.mem_cons_of_mem _ hw)) c others b hothers⟩

/-- What lasts is kept when a value is settled. -/
theorem settle_lasting {P : Value → Prop} (hP : Lasting P) {source : IdSource} (v : Value)
    (hv : P v) : ∀ a item b, settle source v a = (.ok item, b) → P item := by
  induction v using Value.children_induction with
  | step v ih =>
    intro a item b h
    have hsettles := settles source v a
    rw [h] at hsettles
    cases hsettles with
    | leaf ho _ _ _ => exact hP.leaf (lasting_entered hP (ho ▸ hv))
    | empty ho _ _ _ _ => exact hP.childList (lasting_entered hP (ho ▸ hv)) (List.forall_mem_nil _)
    | listed ho _ _ _ _ hall =>
      refine hP.childList (lasting_entered hP (ho ▸ hv)) ?_
      exact settleAll_lasting v.children (fun w hw => ih w hw (hP.children hv w hw)) _ _ b hall

/-! ## What is settled already -/

/-- A new name is kept, and nothing is drawn for it. -/
theorem identify_of_fresh {source : IdSource} {kind : ComponentKind} {fields : Fields} {id : String}
    {a : Allotment} (hid : Fields.field fields "id" = .text id) (hne : id ≠ "")
    (hnew : id ∉ a.used) :
    identify source kind fields a = (.ok fields, { a with used := id :: a.used }) := by
  have hkept : kept? a.used (.text id) = some id := by
    simp [kept?, hne, hnew]
  rw [identify, hid, hkept]

theorem settleAll_of_named {source : IdSource} {drawn : Nat} (vs : List Value)
    (ih : ∀ v ∈ vs, ∀ used after, Named Stored used [v] after →
      settle source v ⟨used, drawn⟩ = (.ok v, ⟨after, drawn⟩)) :
    ∀ used after, Named Stored used vs after →
      settleAll source vs ⟨used, drawn⟩ = (.ok vs, ⟨after, drawn⟩) := by
  induction vs with
  | nil =>
    intro used after h
    obtain rfl := Named.nil_iff.mp h
    rw [settleAll]
  | cons v rest ihRest =>
    intro used after h
    obtain ⟨between, hv, hrest⟩ := Named.cons_iff_singleton.mp h
    have hothers := ihRest (fun w hw => ih w (List.mem_cons_of_mem _ hw)) between after hrest
    rw [settleAll, ih v (List.mem_cons_self ..) used between hv]
    simp only [hothers]

/-- The kind of an inner node is one that can be inserted. -/
theorem insertable?_of_inner {v : Value} (h : Inner v) :
    ∃ kind, ComponentKind.insertable? (v.field "type") = some kind ∧
      kind.isContainer = v.isContainer := by
  obtain ⟨kind, hkind⟩ := Option.isSome_iff_exists.mp h.sound.known
  refine ⟨kind, Option.filter_eq_some_iff.mpr ⟨hkind, ?_⟩, (Tree.isContainer_eq hkind).symm⟩
  have hne : kind ≠ .page := fun heq => h.notPage (heq ▸ hkind)
  simpa using hne

/-- A tree of stored nodes whose names are new is stored as it is. -/
theorem settle_of_named {source : IdSource} {drawn : Nat} (v : Value) :
    ∀ used after, Named Stored used [v] after →
      settle source v ⟨used, drawn⟩ = (.ok v, ⟨after, drawn⟩) := by
  induction v using Value.children_induction with
  | step v ih =>
    intro used after h
    obtain ⟨ho, hstored, id, hid, hnew, hbelow⟩ := Named.singleton_iff.mp h
    obtain ⟨fields, rfl⟩ := (Value.isObject_iff v).mp ho
    have hsound := hstored.inner.sound
    obtain ⟨kind, hkind, hcont⟩ := insertable?_of_inner hstored.inner
    have hne : id ≠ "" := by
      obtain ⟨id', hid', hne⟩ := hsound.named
      rw [hid] at hid'
      cases hid'
      exact hne
    have hidentify : identify source kind fields ⟨used, drawn⟩ =
        (.ok fields, ⟨id :: used, drawn⟩) := identify_of_fresh hid hne hnew
    have hprops : withProps fields = fields := if_pos hstored.props
    have htype : ComponentKind.insertable? (Fields.field fields "type") = some kind := hkind
    rw [settle]
    simp only [Value.fields?, htype, hidentify, hprops]
    cases hc : kind.isContainer with
    | false =>
      have hgone := hsound.leaf (hcont.symm.trans hc)
      rw [Value.children_eq_nil_of_get? hgone, Named.nil_iff] at hbelow
      rw [Fields.erase_eq_self hgone, hbelow]
      rfl
    | true =>
      obtain ⟨items, hitems, -⟩ := hsound.container (hcont.symm.trans hc)
      have hget := (Value.childList?_eq_some_iff _ items).mp hitems
      have hfield : Fields.field fields "children" = .list items := by
        show (Fields.get? fields "children").getD .null = .list items
        rw [show Fields.get? fields "children" = some (.list items) from hget, Option.getD_some]
      have hall := settleAll_of_named _ ih _ _ hbelow
      have hchildren : (Value.object fields).children = items := Value.children_of_list hget
      rw [hchildren] at hall
      simp only [hfield, hitems, hchildren, hall, Fields.set_eq_self hget]
      rfl

end PageBuilder.Fresh

namespace PageBuilder.Tree

/-! ## Insertion -/

theorem insert_eq {source : IdSource} {drawn drawn' : Nat} {root parentId node root' : Value}
    {id : String} (h : insert source drawn root parentId node = (.ok (some (root', id)), drawn')) :
    ∃ (visits : List Visit) (parent : Visit) (item : Value) (a : Allotment),
      walk root = .ok visits ∧ parent.Placed root ∧
      parent.id.same parentId = true ∧ parent.node.isContainer = true ∧
      Fresh.settle source node ⟨(visits.map Visit.id).filterMap Value.text?, drawn⟩ =
        (.ok item, a) ∧
      root' = editAt parent.address (editChildren fun children => children ++ [item]) root := by
  unfold insert insertSettled at h
  split at h
  · cases h
  · rename_i visits hwalk
    split at h
    · cases h
    · rename_i parent hfind
      simp only at h
      split at h
      · cases h
      · rename_i hcontainer
        split at h
        · cases h
        · split at h
          · cases h
          · cases h
          · rename_i item a hsettle
            cases h
            have hid := List.find?_some hfind
            exact ⟨visits, parent, item, a, hwalk,
              placed_of_mem_walk hwalk parent (List.mem_of_find?_eq_some hfind), hid,
              by simpa using hcontainer, hsettle, rfl⟩

theorem WellFormed.insert {source : IdSource} {drawn drawn' : Nat}
    {root parentId node root' : Value} {id : String} (h : WellFormed root)
    (hi : Tree.insert source drawn root parentId node = (.ok (some (root', id)), drawn')) :
    WellFormed root' := by
  obtain ⟨visits, parent, item, a, hwalk, hplaced, -, hc, hsettle, rfl⟩ := insert_eq hi
  have hnamed := Fresh.settle_named node _ item a hsettle
  obtain ⟨names, hnames, hnodup, hnew, -⟩ := hnamed.names
  have ho : item.isObject = true := hnamed.isObject_of_mem item (List.mem_singleton_self item)
  rw [map_id_walk hwalk] at hnew
  have hall := h.markedWell
  have hold := ids_eq_map_text h.sound
  have hitem := nodesOf_singleton ho
  refine h.editChildren hplaced.node hplaced.isObject hc [item] (.refl _) ?_ ?_
  · intro c hmem
    rw [List.mem_singleton] at hmem
    subst hmem
    exact ⟨ho, fun m hm => (hnamed.forall_nodes m (by rwa [hitem])).inner.sound⟩
  · refine ⟨hall.page, ?_, ?_⟩
    · intro m hm
      rcases List.mem_append.mp hm with hm | hm
      · exact hall.inner m hm
      · obtain ⟨n, hn, rfl⟩ := List.mem_map.mp hm
        exact beq_eq_false_iff_ne.mpr (hnamed.forall_nodes n hn).inner.notPage
    · have hfirst : (mark root :: (marksOf root.children ++ marksOf [item])).map Prod.fst =
          (nodes root).map (fun n => n.field "id") ++
            (nodesOf [item]).map (fun n => n.field "id") := by
        rw [← List.cons_append, ← marks_eq, List.map_append, marks, marksOf, List.map_map,
          List.map_map]
        rfl
      rw [hfirst, List.nodup_append]
      refine ⟨h.distinct, ?_, ?_⟩
      · rw [hnames]
        exact hnodup.map fun s t hst => by cases hst; rfl
      · intro x hx y hy hxy
        rw [hnames] at hy
        obtain ⟨s, hs, rfl⟩ := List.mem_map.mp hy
        rw [hxy, hold] at hx
        obtain ⟨t, ht, hts⟩ := List.mem_map.mp hx
        cases hts
        exact hnew s hs ht

end PageBuilder.Tree
