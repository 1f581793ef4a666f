import PageBuilder.Action.Run
import PageBuilder.Proofs.Store.Step

/-!
The store under any sequence of operations.

* `Edit` and `Operation`: the calls that change a store, with arbitrary arguments;
* `Edit.apply_eq`: an edit either gives the store that it should give or changes nothing;
* `Operation.apply_step`: an operation changes the tree in one of few ways;
* `apply_atomic`: an edit that is refused or that fails changes nothing.
-/

namespace PageBuilder.Store

/-- A call that edits the tree or sets one key of the data context. -/
inductive Edit where
  | insert (source : IdSource) (drawn : Nat) (parentId node : Value)
  | add (source : IdSource) (drawn : Nat) (parentId kind : Value)
  | update (id fields : Value)
  | remove (id : Value)
  | reorder (id direction : Value)
  | move (id targetId index : Value)
  | setContextValue (key v : Value)

inductive Operation where
  | edit (e : Edit)
  | resetContext (context : Value)
  | select (id : Value)
  | runActions (env : Surroundings) (raws locals : Value) (replies : List Reply)
  | load (source : Value)

/-- What a call says of itself. -/
inductive Verdict where
  | done
  | refused
  | raised (f : Fault)
  deriving DecidableEq

namespace Verdict

def ofApplied : Except Fault Bool → Verdict
  | .error f => raised f
  | .ok true => done
  | .ok false => refused

def ofInserted : Except Fault (Option String) → Verdict
  | .error f => raised f
  | .ok (some _) => done
  | .ok none => refused

def ofUnit : Except Fault Unit → Verdict
  | .error f => raised f
  | .ok () => done

end Verdict

def Edit.apply (s : Store) : Edit → Verdict × Store
  | insert source drawn parentId node =>
    let i := s.insert source drawn parentId node
    (.ofInserted i.result, i.store)
  | add source drawn parentId kind =>
    let i := s.add source drawn parentId kind
    (.ofInserted i.result, i.store)
  | update id fields =>
    let (result, s) := s.update id fields
    (.ofApplied result, s)
  | remove id =>
    let (result, s) := s.remove id
    (.ofApplied result, s)
  | reorder id direction =>
    let (result, s) := s.reorder id direction
    (.ofApplied result, s)
  | move id targetId index =>
    let (result, s) := s.move id targetId index
    (.ofApplied result, s)
  | setContextValue key v =>
    let (result, s) := s.setContextValue key v
    (.ofUnit result, s)

def Operation.apply (s : Store) : Operation → Verdict × Store
  | edit e => e.apply s
  | resetContext context => (.done, s.resetContext context)
  | select id => (.done, s.select id)
  | runActions env raws locals replies =>
    match Run.actions env raws locals s.context replies with
    | .error f => (.raised f, s)
    | .ok run => (.done, { s with context := run.context })
  | load source =>
    let (loaded, s) := Document.accept s source
    (if loaded.ok then .done else .refused, s)

/-! ## The tree stays well-formed -/

open PageBuilder.Tree (TreeStep WellFormed)

theorem Edit.apply_step (s : Store) (e : Edit) :
    TreeStep (fun _ => True) s.root (e.apply s).2.root := by
  cases e with
  | insert source drawn parentId node => exact s.insert_step source drawn trivial
  | add source drawn parentId kind =>
    exact s.add_step source drawn parentId kind fun _ _ _ => trivial
  | update id fields => exact s.update_step id trivial
  | remove id => exact s.remove_step id
  | reorder id direction => exact s.reorder_step id direction
  | move id targetId index => exact s.move_step id targetId index
  | setContextValue key v =>
    show TreeStep _ _ (s.setContextValue key v).2.root
    rw [setContextValue_root]
    exact .same

theorem Operation.apply_step (s : Store) (op : Operation) :
    TreeStep (fun _ => True) s.root (op.apply s).2.root := by
  cases op with
  | edit e => exact e.apply_step s
  | resetContext context => exact .same
  | select id => exact .same
  | runActions env raws locals replies =>
    unfold apply
    simp only
    split <;> exact .same
  | load source => exact s.accept_step fun _ _ _ _ _ => trivial

/-! ## Edits that change nothing -/

def selectedWithout (s : Store) (removed : List Value) : Value :=
  if removed.any (·.alike s.selected) then .null else s.selected

/-- The store that an edit is to give, if it is to give one: the tree is the edited one, what was
added is selected and what was removed is not, and nothing else changes. -/
def Edit.intended (s : Store) : Edit → Except Fault (Option Store)
  | insert source drawn parentId node =>
    (Tree.insert source drawn s.root parentId node).1.map fun edited =>
      edited.map fun (root, _) => { s with root }
  | add source drawn parentId kind =>
    match Fresh.componentOf source drawn kind with
    | (.error _, _) => .ok none
    | (.ok node, drawn) =>
      (Tree.insert source drawn s.root parentId node).1.map fun edited =>
        edited.map fun (root, id) => { s with root, selected := .text id }
  | update id fields =>
    (Tree.update s.root id fields).map fun edited => edited.map fun root => { s with root }
  | remove id =>
    (Tree.remove s.root id).map fun edited =>
      edited.map fun (root, removed) =>
        { s with root, selected := s.selectedWithout removed }
  | reorder id direction =>
    (Tree.reorder s.root id direction).map fun edited => edited.map fun root => { s with root }
  | move id targetId index =>
    (Tree.move s.root id targetId index).map fun edited => edited.map fun root => { s with root }
  | setContextValue key v =>
    match key with
    | .text name =>
      (fieldsOf s.context).map fun fields =>
        some { s with context := .object (Step.assign fields name v) }
    | _ => .error .contextKey

/-- What becomes of a store, given what it is to become. -/
def settledOn (s : Store) : Except Fault (Option Store) → Verdict × Store
  | .error f => (.raised f, s)
  | .ok none => (.refused, s)
  | .ok (some t) => (.done, t)

theorem commit_settledOn (s : Store) (edited : Except Fault (Option Value)) :
    (Verdict.ofApplied (s.commit edited).1, (s.commit edited).2) =
      s.settledOn (edited.map fun edited => edited.map fun root => { s with root }) := by
  rcases edited with f | _ | root <;> rfl

theorem insert_settledOn (s : Store) (source : IdSource) (drawn : Nat) (parentId node : Value) :
    (Verdict.ofInserted (s.insert source drawn parentId node).result,
      (s.insert source drawn parentId node).store) =
      s.settledOn ((Tree.insert source drawn s.root parentId node).1.map fun edited =>
        edited.map fun (root, _) => { s with root }) := by
  unfold Store.insert
  rcases Tree.insert source drawn s.root parentId node with ⟨f | _ | ⟨root, id⟩, drawn'⟩ <;> rfl

theorem selecting_settledOn (s : Store) (source : IdSource) (drawn : Nat) (parentId node : Value) :
    (Verdict.ofInserted (s.insert source drawn parentId node).selecting.result,
      (s.insert source drawn parentId node).selecting.store) =
      s.settledOn ((Tree.insert source drawn s.root parentId node).1.map fun edited =>
        edited.map fun (root, id) => { s with root, selected := .text id }) := by
  unfold Store.insert
  rcases Tree.insert source drawn s.root parentId node with ⟨f | _ | ⟨root, id⟩, drawn'⟩ <;> rfl

theorem isHashable_selected {v : Value} (h : v.isNull ∨ v.isText) : v.isHashable = true := by
  cases v with
  | atom a => rfl
  | _ => simp [Value.isNull, Value.isText] at h

/-- Only a selection that can not be looked for keeps a removal from ending. -/
theorem deselect_eq {s : Store} (h : s.selected.isHashable = true) (removed : List Value) :
    s.deselect removed = (.ok true, { s with selected := s.selectedWithout removed }) := by
  unfold deselect selectedWithout
  rw [h]
  cases removed.any (·.alike s.selected) <;> rfl

theorem remove_settledOn {s : Store} (h : s.selected.isHashable = true) (id : Value) :
    (Verdict.ofApplied (s.remove id).1, (s.remove id).2) =
      s.settledOn ((Tree.remove s.root id).map fun edited =>
        edited.map fun (root, removed) =>
          { s with root, selected := s.selectedWithout removed }) := by
  unfold Store.remove
  rcases Tree.remove s.root id with f | _ | ⟨root, removed⟩
  · rfl
  · rfl
  · have hd := deselect_eq (s := s.withRoot root) h removed
    simp only [hd]
    rfl

theorem setContextValue_settledOn (s : Store) (key v : Value) :
    (Verdict.ofUnit (s.setContextValue key v).1, (s.setContextValue key v).2) =
      s.settledOn ((Edit.setContextValue key v).intended s) := by
  cases key with
  | atom a =>
    cases a with
    | text name =>
      simp only [Edit.intended, Store.setContextValue]
      rcases fieldsOf s.context with f | fields <;> rfl
    | _ => rfl
  | _ => rfl

theorem Edit.apply_eq {s : Store} (h : s.selected.isNull ∨ s.selected.isText) (e : Edit) :
    e.apply s = s.settledOn (e.intended s) := by
  cases e with
  | insert source drawn parentId node => exact s.insert_settledOn source drawn parentId node
  | add source drawn parentId kind =>
    simp only [apply, intended, Store.add]
    rcases Fresh.componentOf source drawn kind with ⟨f | node, drawn'⟩
    · rfl
    · exact s.selecting_settledOn source drawn' parentId node
  | update id fields => exact s.commit_settledOn _
  | remove id => exact remove_settledOn (isHashable_selected h) id
  | reorder id direction => exact s.commit_settledOn _
  | move id targetId index => exact s.commit_settledOn _
  | setContextValue key v => exact s.setContextValue_settledOn key v

/-- An edit that is refused or that fails changes nothing, and one that is done gives the store that
it should give. -/
theorem apply_atomic {s : Store} (h : s.selected.isNull ∨ s.selected.isText) (e : Edit) :
    ((e.apply s).1 ≠ .done → (e.apply s).2 = s) ∧
      ∀ t, (e.apply s).1 = .done ∧ (e.apply s).2 = t ↔ e.intended s = .ok (some t) := by
  rw [e.apply_eq h]
  rcases e.intended s with f | _ | t
  · refine ⟨fun _ => rfl, fun t => ⟨fun ht => ?_, fun ht => ?_⟩⟩
    · cases ht.1
    · cases ht
  · refine ⟨fun _ => rfl, fun t => ⟨fun ht => ?_, fun ht => ?_⟩⟩
    · cases ht.1
    · cases ht
  · refine ⟨fun hne => absurd rfl hne, fun u => ⟨fun hu => ?_, fun hu => ?_⟩⟩
    · exact congrArg (fun t => Except.ok (some t)) hu.2
    · cases hu
      exact ⟨rfl, rfl⟩

/-- A tree in which a node has a list for its identifier. -/
def tangled : Store :=
  ⟨.ofFields [("id", .text "root"), ("children", .list [.ofFields [("id", .text "a"),
    ("children", .list [.ofFields [("id", .list [])]])]])], .null, .text "a"⟩

/-- A removal that fails when all was found and only the identifiers were left to be compared. -/
theorem remove_of_tangled_atomic :
    (tangled.selected.isNull = true ∨ tangled.selected.isText = true) ∧
      ((Edit.remove (.text "a")).apply tangled).1 = .raised .unhashable ∧
      ((Edit.remove (.text "a")).apply tangled).2 = tangled := by
  have hraised : ((Edit.remove (.text "a")).apply tangled).1 = .raised .unhashable := by
    decide +kernel
  refine ⟨.inr rfl, hraised, (apply_atomic (.inr rfl) (.remove (.text "a"))).1 ?_⟩
  rw [hraised]
  exact fun h => by cases h

end PageBuilder.Store
