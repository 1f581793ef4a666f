import PageBuilder.Document.Normalize
import PageBuilder.Proofs.Document.RoundTrip
import PageBuilder.Proofs.Document.Warnings
import PageBuilder.Proofs.Value.Closed

/-!
A tree that passes the check is brought into shape without a fault, and stored in shape.

* `Filled`: a tree and the tree it is stored as, said node by node;
* `normalize_of_checked`: a tree without errors is brought into shape without a fault;
* `errors_shaped`: a tree without errors has none in shape;
* `accept_of_rooted`, `accept_of_not_rooted`: what comes of a source;
* `loadOrFault_eq`: loading a tree meets no fault.
-/

namespace PageBuilder.Document

open PageBuilder.Tree (nodes Named)
open Check (Passable PassableInner Presentable Granted)

/-! ## What is filled in -/

/-- The fields with an empty object for the properties where there are none. -/
def propsAdded (fields : Fields) : Fields :=
  if Fields.has fields "props" then fields else Fields.set fields "props" (.object [])

/-- A tree and the same tree with what is missing filled in: properties at every node, and a child
list at every container. -/
inductive Filled : Value → Value → Prop where
  | leaf {fields : Fields} (leaf : (Value.object fields).isContainer = false) :
      Filled (.object fields) (.object (propsAdded fields))
  | unlisted {fields : Fields} (container : (Value.object fields).isContainer = true)
      (missing : (Fields.field fields "children").isNull = true) :
      Filled (.object fields)
        (.object (Fields.set (propsAdded fields) "children" (.list [])))
  | listed {fields : Fields} {items items' : List Value}
      (container : (Value.object fields).isContainer = true)
      (children : Fields.get? fields "children" = some (.list items))
      (length : items.length = items'.length)
      (below : ∀ p ∈ items.zip items', Filled p.1 p.2) :
      Filled (.object fields)
        (.object (Fields.set (propsAdded fields) "children" (.list items')))

theorem get?_propsAdded (fields : Fields) {name : String} (hne : name ≠ "props") :
    Fields.get? (propsAdded fields) name = Fields.get? fields name := by
  unfold propsAdded
  split
  · rfl
  · exact Fields.get?_set_of_ne fields _ hne

/-- The properties of a presentable node are filled in only where there are none. -/
theorem withProps_eq {fields : Fields} (h : Presentable (.object fields)) :
    Fresh.withProps fields = propsAdded fields := by
  unfold Fresh.withProps propsAdded Fields.has
  cases hget : Fields.get? fields "props" with
  | none => simp [Fields.field, hget, Value.isObject]
  | some p =>
    have hp := h.props p hget
    simp [Fields.field, hget, hp]

/-- A passable node is a leaf without children, or a container without or with a child list. -/
theorem childList_cases {fields : Fields} (h : Passable (.object fields)) :
    (Value.object fields).isContainer = false ∨
      ((Value.object fields).isContainer = true ∧
        (Fields.field fields "children").isNull = true) ∨
      ∃ items, (Value.object fields).isContainer = true ∧
        Fields.get? fields "children" = some (.list items) := by
  cases hc : (Value.object fields).isContainer with
  | false => exact .inl rfl
  | true =>
    refine .inr ((h.container hc).imp (fun hnull => ⟨rfl, hnull⟩) fun hlist => ?_)
    obtain ⟨items, hitems⟩ := Option.isSome_iff_exists.mp hlist
    exact ⟨items, rfl, (Value.childList?_eq_some_iff _ items).mp hitems⟩

section Shapes

variable {fields : Fields}

theorem shaped_leaf (h : Passable (.object fields))
    (hc : (Value.object fields).isContainer = false) :
    shaped (.object fields) = .object (propsAdded fields) := by
  rw [shaped_of_leaf hc, withProps_eq h.presentable]

theorem shaped_unlisted (h : Passable (.object fields))
    (hc : (Value.object fields).isContainer = true)
    (hnull : (Fields.field fields "children").isNull = true) :
    shaped (.object fields) = .object (Fields.set (propsAdded fields) "children" (.list [])) := by
  have hnone : (Value.object fields).children = [] := Value.children_of_null hnull
  rw [shaped_of_container hc (.inl hnull), withProps_eq h.presentable, hnone, allShaped,
    Tree.editChildren]

theorem shaped_listed (h : Passable (.object fields))
    (hc : (Value.object fields).isContainer = true) {items : List Value}
    (hget : Fields.get? fields "children" = some (.list items)) :
    shaped (.object fields) =
      .object (Fields.set (propsAdded fields) "children" (.list (allShaped items))) := by
  have hlist := (Value.childList?_eq_some_iff (.object fields) items).mpr hget
  have hitems : (Value.object fields).children = items := Value.children_of_list hget
  rw [shaped_of_container hc (.inr (by rw [hlist]; rfl)), withProps_eq h.presentable, hitems,
    Tree.editChildren]

end Shapes

theorem filled_zip_allShaped {items : List Value} (h : ∀ v ∈ items, Filled v (shaped v)) :
    items.length = (allShaped items).length ∧
      ∀ p ∈ items.zip (allShaped items), Filled p.1 p.2 := by
  induction items with
  | nil =>
    rw [allShaped]
    exact ⟨rfl, fun p hp => by cases hp⟩
  | cons v rest ih =>
    obtain ⟨hlength, hrest⟩ := ih fun w hw => h w (List.mem_cons_of_mem _ hw)
    rw [allShaped, List.zip_cons_cons, List.forall_mem_cons]
    exact ⟨by simp [hlength], h v (List.mem_cons_self ..), hrest⟩

/-- A passable node is stored with what is missing filled in, if all below it is. -/
theorem filled_shaped {v : Value} (ho : v.isObject) (h : Passable v)
    (hbelow : ∀ c ∈ v.children, Filled c (shaped c)) : Filled v (shaped v) := by
  obtain ⟨fields, rfl⟩ := (Value.isObject_iff v).mp ho
  rcases childList_cases h with hc | ⟨hc, hnull⟩ | ⟨items, hc, hget⟩
  · rw [shaped_leaf h hc]
    exact .leaf hc
  · rw [shaped_unlisted h hc hnull]
    exact .unlisted hc hnull
  · have hitems : (Value.object fields).children = items := Value.children_of_list hget
    rw [shaped_listed h hc hget]
    rw [hitems] at hbelow
    obtain ⟨hlength, hzip⟩ := filled_zip_allShaped hbelow
    exact .listed hc hget hlength hzip

/-! ## Without a fault -/

theorem normalizeAll_eq {vs : List Value} (h : ∀ v ∈ vs, normalize v = .ok (shaped v)) :
    normalizeAll vs = .ok (allShaped vs) := by
  induction vs with
  | nil => rw [normalizeAll, allShaped]
  | cons v rest ih =>
    rw [normalizeAll, allShaped, h v (List.mem_cons_self ..),
      ih fun w hw => h w (List.mem_cons_of_mem _ hw)]
    rfl

/-- A node of a known kind has a text for its type, which can be looked for in a set. -/
theorem isHashable_of_known {v : Value} (h : v.kind?.isSome) :
    (v.field "type").isHashable = true := by
  unfold Value.kind? at h
  cases htype : v.field "type" with
  | atom a => rfl
  | _ =>
    rw [htype] at h
    cases h

section Normalize

variable {fields : Fields} (hhash : (Fields.field fields "type").isHashable = true)

include hhash

theorem normalize_leaf (hc : (Value.object fields).isContainer = false) :
    normalize (.object fields) = .ok (.object (filled fields)) := by
  rw [normalize]
  simp [hhash, hc]

theorem normalize_unlisted (hc : (Value.object fields).isContainer = true)
    (hnull : (Fields.field fields "children").isNull = true) :
    normalize (.object fields) = .ok (.object (filled fields)) := by
  rw [normalize]
  simp only [hhash, hc, Bool.not_true, Bool.false_eq_true, if_false]
  split
  · rfl
  · rfl
  all_goals
    rename_i hget
    rw [Fields.field, hget] at hnull
    simp_all [Value.isNull]

theorem normalize_listed (hc : (Value.object fields).isContainer = true) {items : List Value}
    (hget : Fields.get? fields "children" = some (.list items)) :
    normalize (.object fields) = (normalizeAll items).map fun items =>
      .object (Fields.set (filled fields) "children" (.list items)) := by
  rw [normalize]
  simp only [hhash, hc, Bool.not_true, Bool.false_eq_true, if_false]
  split
  all_goals
    rename_i heq
    cases heq.symm.trans hget
  · rfl
  · simp_all

end Normalize

theorem shaped_eq_filled {fields : Fields}
    (h : (Value.object fields).isContainer = false ∨ (Value.object fields).childList? = none) :
    shaped (.object fields) = .object (filled fields) := by
  rw [shaped]
  rcases h with h | h <;> simp [Value.fields?, h]

/-- A passable node is brought into shape without a fault, if all below it is. -/
theorem normalize_of_passable {v : Value} (ho : v.isObject) (h : Passable v)
    (hbelow : ∀ c ∈ v.children, normalize c = .ok (shaped c)) : normalize v = .ok (shaped v) := by
  obtain ⟨fields, rfl⟩ := (Value.isObject_iff v).mp ho
  have hhash : (Fields.field fields "type").isHashable = true := isHashable_of_known h.known
  rcases childList_cases h with hc | ⟨hc, hnull⟩ | ⟨items, hc, hget⟩
  · rw [normalize_leaf hhash hc, shaped_eq_filled (.inl hc)]
  · rw [normalize_unlisted hhash hc hnull, shaped_eq_filled (.inr (Value.childList?_of_null hnull))]
  · have hlist := (Value.childList?_eq_some_iff (.object fields) items).mpr hget
    have hitems : (Value.object fields).children = items := Value.children_of_list hget
    rw [hitems] at hbelow
    rw [normalize_listed hhash hc hget, normalizeAll_eq hbelow, shaped, hitems]
    simp [Value.fields?, hc, hlist, Except.map]

/-- A property of nodes that follows from that of their children holds of all that is named. -/
theorem forall_mem_of_named {P : Value → Prop}
    (hstep : ∀ v, v.isObject → Passable v → (∀ c ∈ v.children, P c) → P v)
    {used after : List String} {vs : List Value} (h : Named PassableInner used vs after) :
    ∀ v ∈ vs, P v := by
  induction h with
  | nil used => exact fun v hv => by cases hv
  | cons ho hq _ _ _ _ ihBelow ihBeside =>
    rw [List.forall_mem_cons]
    exact ⟨hstep _ ho hq.passable ihBelow, ihBeside⟩

theorem of_granted {P : Value → Prop}
    (hstep : ∀ v, v.isObject → Passable v → (∀ c ∈ v.children, P c) → P v) {isRoot : Bool}
    {used after : List String} {v : Value} (h : Granted isRoot used v after) : P v := by
  obtain ⟨ho, hp, -, id, -, -, hbelow⟩ := h
  exact hstep v ho hp (forall_mem_of_named hstep hbelow)

/-- A tree without errors is brought into shape without a fault. -/
theorem normalize_of_checked {root : Value} (h : (Check.tree root).errors = []) :
    normalize root = .ok (shaped root) := by
  obtain ⟨-, after, hgranted⟩ := (Check.tree_errors_iff root).mp h
  exact of_granted (fun v => normalize_of_passable) hgranted

/-- A tree without errors is stored with what is missing filled in. -/
theorem filled_of_checked {root : Value} (h : (Check.tree root).errors = []) :
    Filled root (shaped root) := by
  obtain ⟨-, after, hgranted⟩ := (Check.tree_errors_iff root).mp h
  exact of_granted (fun v => filled_shaped) hgranted

/-! ## The stored tree is without errors -/

theorem get?_shaped {v : Value} (ho : v.isObject) (h : Passable v) {name : String}
    (hprops : name ≠ "props") (hchildren : name ≠ "children") :
    (shaped v).get? name = v.get? name := by
  obtain ⟨fields, rfl⟩ := (Value.isObject_iff v).mp ho
  have hset (w : Value) :
      Fields.get? (Fields.set (propsAdded fields) "children" w) name = Fields.get? fields name := by
    rw [Fields.get?_set_of_ne _ _ hchildren, get?_propsAdded fields hprops]
  rcases childList_cases h with hc | ⟨hc, hnull⟩ | ⟨items, hc, hget⟩
  · rw [shaped_leaf h hc]
    exact get?_propsAdded fields hprops
  · rw [shaped_unlisted h hc hnull]
    exact hset _
  · rw [shaped_listed h hc hget]
    exact hset _

theorem field_shaped {v : Value} (ho : v.isObject) (h : Passable v) {name : String}
    (hprops : name ≠ "props") (hchildren : name ≠ "children") :
    (shaped v).field name = v.field name := by
  rw [Value.field_eq, get?_shaped ho h hprops hchildren, Value.field_eq]

/-- A passable node is passable in shape. -/
theorem passable_shaped {v : Value} (ho : v.isObject) (h : Passable v)
    (hchildren : ∀ c ∈ allShaped v.children, c.isObject) : Passable (shaped v) := by
  obtain ⟨hsound, -, -, hprops, -⟩ := stored_shaped ho h hchildren
  refine ⟨hsound.named, hsound.known, ⟨?_, ?_, ?_, ?_⟩, hsound.leaf, fun hc => .inr ?_⟩
  · intro p hp
    rwa [Value.field_eq, hp] at hprops
  · rw [get?_shaped ho h (by decide) (by decide)]
    exact h.presentable.style
  · rw [field_shaped ho h (by decide) (by decide)]
    exact h.presentable.label
  · rw [field_shaped ho h (by decide) (by decide)]
    exact h.presentable.events
  · obtain ⟨items, hitems, -⟩ := hsound.container hc
    rw [hitems]
    rfl

theorem passable_allShaped {used after : List String} {vs : List Value}
    (h : Named PassableInner used vs after) : Named PassableInner used (allShaped vs) after := by
  induction h with
  | nil used =>
    rw [allShaped]
    exact .nil used
  | cons ho hq hid hnew _ _ ihBelow ihBeside =>
    rw [allShaped]
    obtain ⟨hsound, hkind, hid', -, hchildren⟩ :=
      stored_shaped ho hq.passable ihBelow.isObject_of_mem
    refine .cons hsound.isObject ⟨passable_shaped ho hq.passable ihBelow.isObject_of_mem, ?_⟩
      (hid'.trans hid) hnew ?_ ihBeside
    · rw [hkind]
      exact hq.notPage
    · rw [hchildren]
      exact ihBelow

theorem granted_shaped {isRoot : Bool} {used after : List String} {v : Value}
    (h : Granted isRoot used v after) : Granted isRoot used (shaped v) after := by
  obtain ⟨ho, hp, hpage, id, hid, hnew, hbelow⟩ := h
  have hbelow := passable_allShaped hbelow
  obtain ⟨hsound, hkind, hid', -, hchildren⟩ := stored_shaped ho hp hbelow.isObject_of_mem
  rw [← hchildren] at hbelow
  refine ⟨hsound.isObject, ?_, ?_, id, hid'.trans hid, hnew, hbelow⟩
  · exact passable_shaped ho hp (hchildren ▸ hbelow.isObject_of_mem)
  · rw [hkind]
    exact hpage

theorem lasting_offence? : Tree.Lasting fun v => v.offence? = none where
  children hv c hc := by
    obtain ⟨items, hget, hmem⟩ := Value.exists_of_mem_children hc
    obtain ⟨fields, rfl⟩ := (Value.isObject_iff _).mp (Tree.isObject_of_mem_children hc)
    exact Value.offence?_closed.items (Value.offence?_closed.fields hv _ (Fields.mem_of_get? hget))
      rfl c hmem
  id hv id := Value.offence?_closed.set hv (Value.offence?_closed.text id) "id"
  props hv := Value.offence?_closed.set hv (v := .object []) rfl "props"
  childList hv hitems := by
    refine Value.offence?_closed.set hv ?_ "children"
    rwa [Value.offence?, Value.itemsOffence?_eq_none_iff]
  leaf hv := Value.offence?_closed.erase hv "children"

/-- What has no offence has none in shape. -/
theorem offence?_shaped {v : Value} (h : v.offence? = none) : (shaped v).offence? = none :=
  lasting_shaped lasting_offence? v h

/-- A tree without errors has none in shape. -/
theorem errors_shaped {root : Value} (h : (Check.tree root).errors = []) :
    (Check.tree (shaped root)).errors = [] := by
  obtain ⟨hoffence, after, hgranted⟩ := (Check.tree_errors_iff root).mp h
  exact (Check.tree_errors_iff _).mpr ⟨offence?_shaped hoffence, after, granted_shaped hgranted⟩

/-- A tree without errors is in shape not warned of for what is missing. -/
theorem nothing_missing_shaped {root : Value} (h : (Check.tree root).errors = []) :
    ∀ i ∈ (Check.tree (shaped root)).warnings,
      i.code ≠ .nodePropsMissing ∧ i.code ≠ .nodeChildrenMissing := by
  obtain ⟨hwell, hprops⟩ := wellFormed_shaped h
  refine Check.nothing_missing (fun n hn => ?_) fun n hn hc => ?_
  · have hn := hprops n hn
    rw [Value.field_eq] at hn
    cases hget : n.get? "props" with
    | some p => rfl
    | none =>
      rw [hget] at hn
      cases hn
  · obtain ⟨items, hitems, -⟩ := (hwell.sound n hn).container hc
    rw [hitems]
    rfl

/-! ## Sources -/

/-- A source from which a document with a tree is read. -/
def Rooted (source : Value) (fields : Fields) (root : Value) : Prop :=
  ofSource source = .ok (.object fields) ∧ Fields.get? fields "root" = some root

section Sources

variable (s : Store) {source : Value}

theorem accept_of_rooted {fields : Fields} {root : Value} (h : Rooted source fields root) :
    accept s source = load s (Fields.field fields "version") root := by
  unfold accept
  simp only [h.1, Value.fields?, h.2]

theorem accept_of_not_rooted (h : ∀ fields root, ¬ Rooted source fields root) :
    ∃ issue, accept s source = (.refused issue, s) := by
  unfold accept
  cases hsource : ofSource source with
  | error f => exact ⟨unreadable f, rfl⟩
  | ok document =>
    cases hfields : document.fields? with
    | none => exact ⟨rootMissing, by simp only [hfields]⟩
    | some fields =>
      obtain rfl := Value.fields?_eq_some hfields
      cases hroot : Fields.get? fields "root" with
      | none => exact ⟨rootMissing, by simp only [Value.fields?, hroot]⟩
      | some root => exact absurd ⟨hsource, hroot⟩ (h fields root)

end Sources

/-- Loading a tree meets no fault, as what the check lets through can be brought into shape. -/
theorem loadOrFault_eq (s : Store) (version root : Value) :
    loadOrFault s version root = .ok (load s version root) := by
  unfold loadOrFault load
  simp only
  split
  · rename_i herrors
    rw [normalize_of_checked (List.isEmpty_iff.mp herrors)]
    rfl
  · rfl

end PageBuilder.Document
