import PageBuilder.Document.Check
import PageBuilder.Proofs.Action.Parsed
import PageBuilder.Proofs.Tree.Named

/-!
What the check of a tree finds no error in, said without the check.

* `Passable`: a node without errors, its place in the tree and its children apart;
* `node_errors_iff`: a node without errors, with all below it;
* `tree_errors_iff`: a tree without errors.
-/

namespace PageBuilder.Check

open PageBuilder.Tree (Named)

/-- A node whose fields hold what the check asks of them, identifier, kind and children apart. -/
structure Presentable (v : Value) : Prop where
  props : ∀ p, v.get? "props" = some p → p.isObject
  style : ∀ p, v.get? "style" = some p → p.isObject
  label : (v.field "label").isNull ∨ (v.field "label").isText
  events : (v.field "events").isNull ∨ (v.field "events").isObject

/-- A node in which no error is found, wherever it stands and whatever its children are. -/
structure Passable (v : Value) : Prop where
  named : ∃ id, v.field "id" = .text id ∧ id ≠ ""
  known : v.kind?.isSome
  presentable : Presentable v
  leaf : v.isContainer = false → v.get? "children" = none
  container : v.isContainer = true → (v.field "children").isNull ∨ v.childList?.isSome

/-- A passable node that may be below the root. -/
structure PassableInner (v : Value) : Prop where
  passable : Passable v
  notPage : v.kind? ≠ some .page

/-- A node in which no error is found, nor in what is below it: names in `used` were met before, and
those in `after` are then. -/
structure Granted (isRoot : Bool) (used : List String) (v : Value) (after : List String) :
    Prop where
  isObject : v.isObject
  passable : Passable v
  page : v.kind? = some .page ↔ isRoot = true
  below : ∃ id, v.field "id" = .text id ∧ id ∉ used ∧
    Named PassableInner (id :: used) v.children after

theorem granted_inner_iff {used after : List String} {v : Value} :
    Granted false used v after ↔ Named PassableInner used [v] after := by
  rw [Named.singleton_iff]
  constructor
  · rintro ⟨ho, hp, hpage, hbelow⟩
    exact ⟨ho, ⟨hp, fun h => by cases hpage.mp h⟩, hbelow⟩
  · rintro ⟨ho, ⟨hp, hpage⟩, hbelow⟩
    exact ⟨ho, hp, ⟨fun h => absurd h hpage, fun h => by cases h⟩, hbelow⟩

/-! ## Single checks -/

@[simp] theorem errors_append (f g : Findings) : (f ++ g).errors = f.errors ++ g.errors := rfl

@[simp] theorem append_empty (f : Findings) : f ++ ({} : Findings) = f := by
  show Findings.append f {} = f
  rw [Findings.append, List.append_nil, List.append_nil]

theorem errors_append_eq_nil_iff (f g : Findings) :
    (f ++ g).errors = [] ↔ f.errors = [] ∧ g.errors = [] := by
  rw [errors_append, List.append_eq_nil_iff]

theorem lookup_eq_none_iff (seen : Seen) (id : String) :
    seen.lookup id = none ↔ id ∉ seen.map Prod.fst := by
  rw [List.lookup_eq_none_iff, List.mem_map]
  constructor
  · rintro h ⟨p, hp, rfl⟩
    have := h p hp
    simp at this
  · intro h p hp
    rw [bne_iff_ne]
    rintro rfl
    exact h ⟨p, hp, rfl⟩

/-- An identifier that is new joins those that were met. -/
theorem id_of_new {path : String} {seen : Seen} {id : String} (hne : id ≠ "")
    (hnew : id ∉ seen.map Prod.fst) : Check.id path seen (.text id) = ({}, (id, path) :: seen) := by
  have hname := (Action.name?_eq_some_iff (.text id) id).mpr ⟨rfl, hne⟩
  have hnone := (lookup_eq_none_iff seen id).mpr hnew
  unfold Check.id
  simp only [hname, hnone]

theorem id_errors_iff (path : String) (seen : Seen) (v : Value) :
    (Check.id path seen v).1.errors = [] ↔
      ∃ id, v = .text id ∧ id ≠ "" ∧ id ∉ seen.map Prod.fst := by
  constructor
  · intro h
    unfold Check.id at h
    split at h
    · cases h
    · rename_i id hname
      obtain ⟨hv, hne⟩ := (Action.name?_eq_some_iff v id).mp hname
      split at h
      · cases h
      · rename_i hnone
        exact ⟨id, hv, hne, (lookup_eq_none_iff seen id).mp hnone⟩
  · rintro ⟨id, rfl, hne, hnew⟩
    rw [id_of_new hne hnew]

theorem place_errors_iff (path : String) (isRoot : Bool) (kind : ComponentKind) :
    (place path isRoot kind).errors = [] ↔ (some kind = some .page ↔ isRoot = true) := by
  unfold place
  cases isRoot <;> by_cases hk : kind = .page <;> simp [hk, Findings.error]

theorem props_errors_iff (path : String) (v : Option Value) :
    (props path v).errors = [] ↔ ∀ p, v = some p → p.isObject := by
  cases v with
  | none => simp [props, Findings.warning]
  | some v => cases h : v.isObject <;> simp [props, h, Findings.error]

theorem style_errors_iff (path : String) (v : Option Value) :
    (style path v).errors = [] ↔ ∀ p, v = some p → p.isObject := by
  cases v with
  | none => simp [style]
  | some v => cases h : v.isObject <;> simp [style, h, Findings.error]

theorem label_errors_iff (path : String) (v : Value) :
    (label path v).errors = [] ↔ v.isNull = true ∨ v.isText = true := by
  unfold label
  rw [← Bool.or_eq_true]
  cases h : (v.isNull || v.isText) <;> simp [Findings.error]

/-- Of the actions of an event only warnings are given. -/
@[simp] theorem eventFields_errors (path : String) (fields : Fields) :
    (eventFields path fields).errors = [] := by
  induction fields with
  | nil => rfl
  | cons field rest ih =>
    obtain ⟨k, actions⟩ := field
    rw [eventFields, errors_append, ih]
    rfl

theorem events_errors_iff (path : String) (v : Value) :
    (events path v).errors = [] ↔ v.isNull = true ∨ v.isObject = true := by
  cases v with
  | atom a => cases a <;> simp [events, Findings.error, Value.isNull, Value.isObject]
  | object fields => simp [events, eventFields_errors, Value.isNull, Value.isObject]
  | _ => simp [events, Findings.error, Value.isNull, Value.isObject]

theorem contents_errors_iff (path : String) (isRoot : Bool) (kind : ComponentKind)
    (fields : Fields) :
    (contents path isRoot kind fields).errors = [] ↔
      (some kind = some .page ↔ isRoot = true) ∧ Presentable (.object fields) := by
  simp only [contents, errors_append_eq_nil_iff, place_errors_iff, props_errors_iff,
    style_errors_iff, label_errors_iff, events_errors_iff]
  constructor
  · rintro ⟨⟨⟨⟨hplace, hprops⟩, hstyle⟩, hlabel⟩, hevents⟩
    exact ⟨hplace, hprops, hstyle, hlabel, hevents⟩
  · rintro ⟨hplace, hprops, hstyle, hlabel, hevents⟩
    exact ⟨⟨⟨⟨hplace, hprops⟩, hstyle⟩, hlabel⟩, hevents⟩

theorem childList_errors_iff (path : String) (kind : ComponentKind) (fields : Fields) :
    (childList path kind fields).errors = [] ↔
      (kind.isContainer = false → Fields.get? fields "children" = none) ∧
      (kind.isContainer = true → (Fields.field fields "children").isNull = true ∨
        (Value.object fields).childList?.isSome = true) := by
  unfold childList Fields.has Fields.field Value.childList?
  cases kind.isContainer with
  | false => cases h : Fields.get? fields "children" <;> simp [Findings.error]
  | true =>
    cases h : Fields.get? fields "children" with
    | none => simp [Findings.warning, Value.isNull]
    | some v =>
      cases v with
      | atom a => cases a <;> simp [h, Findings.error, Findings.warning, Value.isNull]
      | _ => simp [h, Findings.error, Value.isNull]

/-! ## Trees -/

theorem node_of_known {path : String} {isRoot : Bool} {seen : Seen} {fields : Fields}
    {kind : ComponentKind} (hkind : (Value.object fields).kind? = some kind) :
    node path isRoot seen (.object fields) =
      let (named, seen) := Check.id path seen (Fields.field fields "id")
      let (below, seen) :=
        if kind.isContainer then nodes path 0 seen (Value.object fields).children else ({}, seen)
      (named ++ contents path isRoot kind fields ++ childList path kind fields ++ below, seen) := by
  have hof : ComponentKind.ofValue? (Fields.field fields "type") = some kind := hkind
  unfold node
  simp only [Value.fields?, hof]
  cases kind.isContainer with
  | true => rfl
  | false => exact Prod.ext (append_empty _).symm rfl

theorem nodes_errors_iff (vs : List Value)
    (ih : ∀ v ∈ vs, ∀ path isRoot seen after,
      (node path isRoot seen v).1.errors = [] ∧ (node path isRoot seen v).2.map Prod.fst = after ↔
        Granted isRoot (seen.map Prod.fst) v after) :
    ∀ path index seen after,
      (nodes path index seen vs).1.errors = [] ∧
        (nodes path index seen vs).2.map Prod.fst = after ↔
        Named PassableInner (seen.map Prod.fst) vs after := by
  induction vs with
  | nil =>
    intro path index seen after
    rw [nodes, Named.nil_iff]
    exact ⟨fun h => h.2.symm, fun h => ⟨rfl, h.symm⟩⟩
  | cons v rest ihRest =>
    intro path index seen after
    have hv := ih v (List.mem_cons_self ..) (childPath path index) false seen
    have hrest := ihRest (fun w hw => ih w (List.mem_cons_of_mem _ hw)) path (index + 1)
      (node (childPath path index) false seen v).2 after
    rw [nodes, Named.cons_iff_singleton]
    simp only [errors_append_eq_nil_iff]
    constructor
    · rintro ⟨⟨hfirst, hothers⟩, hafter⟩
      exact ⟨_, granted_inner_iff.mp ((hv _).mp ⟨hfirst, rfl⟩), hrest.mp ⟨hothers, hafter⟩⟩
    · rintro ⟨between, hnamed, hbeside⟩
      obtain ⟨hfirst, rfl⟩ := (hv between).mpr (granted_inner_iff.mpr hnamed)
      obtain ⟨hothers, hafter⟩ := hrest.mpr hbeside
      exact ⟨⟨hfirst, hothers⟩, hafter⟩

/-- A value that is no object is an error, and so is a node of unknown kind. -/
theorem node_errors_ne {path : String} {isRoot : Bool} {seen : Seen} {v : Value}
    (h : v.isObject = false ∨ v.kind? = none) : (node path isRoot seen v).1.errors ≠ [] := by
  unfold node
  cases v with
  | object fields =>
    have hof : ComponentKind.ofValue? (Fields.field fields "type") = none :=
      h.resolve_left (by simp [Value.isObject])
    simp only [Value.fields?, hof]
    exact List.append_ne_nil_of_right_ne_nil _ (List.cons_ne_nil _ _)
  | _ => exact List.cons_ne_nil _ _

/-- The children are checked of a container only, but others that are passable have none. -/
theorem below_errors_iff (path : String) (seen : Seen) {after : List String} {v : Value}
    {kind : ComponentKind} (hleaf : kind.isContainer = false → v.get? "children" = none)
    (ih : ∀ v' ∈ v.children, ∀ path isRoot seen after,
      (node path isRoot seen v').1.errors = [] ∧ (node path isRoot seen v').2.map Prod.fst = after ↔
        Granted isRoot (seen.map Prod.fst) v' after) :
    let below := if kind.isContainer then nodes path 0 seen v.children else ({}, seen)
    below.1.errors = [] ∧ below.2.map Prod.fst = after ↔
      Named PassableInner (seen.map Prod.fst) v.children after := by
  cases hc : kind.isContainer with
  | true => exact nodes_errors_iff v.children ih path 0 seen after
  | false =>
    rw [Value.children_eq_nil_of_get? (hleaf hc), Named.nil_iff]
    exact ⟨fun h => h.2.symm, fun h => ⟨rfl, h.symm⟩⟩

/-- A node is without errors, with all below it, just if it is granted. -/
theorem node_errors_iff (v : Value) : ∀ path isRoot seen after,
    (node path isRoot seen v).1.errors = [] ∧ (node path isRoot seen v).2.map Prod.fst = after ↔
      Granted isRoot (seen.map Prod.fst) v after := by
  induction v using Value.children_induction with
  | step v ih =>
    intro path isRoot seen after
    by_cases hbad : v.isObject = false ∨ v.kind? = none
    · refine ⟨fun h => absurd h.1 (node_errors_ne hbad), fun h => ?_⟩
      rcases hbad with hbad | hbad
      · exact absurd h.isObject (by simp [hbad])
      · exact absurd h.passable.known (by simp [hbad])
    · rw [not_or, Bool.not_eq_false, ← Ne, Option.ne_none_iff_exists'] at hbad
      obtain ⟨ho, kind, hkind⟩ := hbad
      obtain ⟨fields, rfl⟩ := (Value.isObject_iff v).mp ho
      have hc := Tree.isContainer_eq hkind
      rw [node_of_known hkind]
      simp only [errors_append_eq_nil_iff, id_errors_iff, contents_errors_iff,
        childList_errors_iff]
      constructor
      · rintro ⟨⟨⟨⟨⟨id, hid, hne, hnew⟩, hpage, hpresentable⟩, hleaf, hcontainer⟩, hbelow⟩, hafter⟩
        rw [hid, id_of_new hne hnew] at hbelow hafter
        refine ⟨rfl, ⟨⟨id, hid, hne⟩, ?_, hpresentable, ?_, ?_⟩, ?_, id, hid, hnew, ?_⟩
        · rw [hkind]
          rfl
        · rwa [hc]
        · rwa [hc]
        · rwa [hkind]
        · exact (below_errors_iff path _ hleaf ih).mp ⟨hbelow, hafter⟩
      · rintro ⟨-, ⟨⟨id', hid', hne⟩, -, hpresentable, hleaf, hcontainer⟩, hpage, id, hid, hnew,
          hnamed⟩
        obtain rfl : id' = id := by
          rw [hid] at hid'
          cases hid'
          rfl
        rw [hc] at hleaf hcontainer
        rw [hkind] at hpage
        have hfield : Fields.field fields "id" = .text id' := hid
        rw [hfield, id_of_new hne hnew]
        obtain ⟨hbelow, hafter⟩ :=
          (below_errors_iff path ((id', path) :: seen) hleaf ih).mpr hnamed
        exact ⟨⟨⟨⟨⟨id', rfl, hne, hnew⟩, hpage, hpresentable⟩, hleaf, hcontainer⟩, hbelow⟩, hafter⟩

/-- A tree is without errors just if all its values are those of JSON and its root is granted. -/
theorem tree_errors_iff (root : Value) :
    (tree root).errors = [] ↔ root.offence? = none ∧ ∃ after, Granted true [] root after := by
  unfold tree
  rw [errors_append_eq_nil_iff]
  have hvalues : (values root).errors = [] ↔ root.offence? = none := by
    unfold values
    cases root.offence? <;> simp [Findings.error]
  rw [hvalues]
  refine and_congr_right fun _ => ⟨fun h => ?_, fun ⟨after, h⟩ => ?_⟩
  · exact ⟨_, (node_errors_iff root "root" true [] _).mp ⟨h, rfl⟩⟩
  · exact ((node_errors_iff root "root" true [] after).mpr h).1

/-- Every node of a granted tree is passable. -/
theorem Granted.passable_of_mem {isRoot : Bool} {used after : List String} {v : Value}
    (h : Granted isRoot used v after) : ∀ n ∈ Tree.nodes v, Passable n := by
  obtain ⟨-, hp, -, id, -, -, hbelow⟩ := h
  intro n hn
  rw [Tree.nodes_eq] at hn
  rcases List.mem_cons.mp hn with rfl | hn
  · exact hp
  · exact (hbelow.forall_nodes n hn).passable

end PageBuilder.Check
