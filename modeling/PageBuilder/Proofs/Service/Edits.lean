import PageBuilder.Proofs.Service.Events
import PageBuilder.Proofs.Store.Kept
import PageBuilder.Service.Routes

/-!
What the calls of the service put into the tree.

* `withBody_cases`, `withFields_cases`, `withNode_cases`: what holds of errors and of all that a
  call goes on with holds of its outcome;
* `EditedBy`: a session with a tree that was changed once at most, by values of a kind;
* `ActionsPut`: a session in which actions were put into a node for an event, or nothing was;
* `call_editedBy`: every call that only edits does so, for every kind of values that has all that
  can be read of a body, and the event lists that are put into nodes.
-/

namespace PageBuilder

/-- The node and the event whose actions are edited by a call. -/
def Call.actionsOf? : Call → Option (String × String)
  | addAction id event => some (id, event)
  | patchAction id event _ => some (id, event)
  | deleteAction id event _ => some (id, event)
  | _ => none

/-- Whether a call has no part in the data context. -/
def Call.onlyEdits : Call → Bool
  | resetSession => false
  | runEvent _ _ => false
  | putContext _ => false
  | _ => true

namespace Session

open PageBuilder.Tree (TreeStep)
open Value (Storable Workable)
open Outcome (bodyNotObject)

variable {s : Session} {body : List UInt8}

/-! ## Ways to go on -/

section Cases

variable {P : Outcome → Prop} (error : ∀ code message path status, status ≠ 500 →
  P (.error s code message path status))

include error

theorem withBody_cases {next : Value → Outcome} (read : ∀ v, readBody body = .ok v → P (next v)) :
    P (s.withBody body next) := by
  unfold withBody
  split
  · exact error _ _ _ _ (by decide)
  · rename_i v hv
    exact read v hv

theorem withFields_cases {next : Fields → Outcome}
    (read : ∀ fields, readBody body = .ok (.object fields) → P (next fields)) :
    P (s.withFields body next) := by
  refine withBody_cases error fun v hv => ?_
  split
  · exact error _ _ _ _ (by decide)
  · rename_i fields hfields
    rw [Value.fields?_eq_some hfields] at hv
    exact read fields hv

theorem withNode_cases {id : String} {next : Value → Outcome}
    (broken : ∀ f, Tree.find s.store.root (.text id) = .error f →
      P { session := s, answer := .broken })
    (found : ∀ node, Tree.find s.store.root (.text id) = .ok (some node) → P (next node)) :
    P (s.withNode id next) := by
  unfold withNode
  split
  · rename_i f hf
    exact broken f hf
  · exact error _ _ _ _ (by decide)
  · rename_i node hnode
    exact found node hnode

end Cases

/-- What is read of a body is storable. -/
theorem readBody_storable {v : Value} (h : readBody body = .ok v) : v.Storable := by
  unfold readBody at h
  split at h
  · cases h
    exact .atom rfl
  · rename_i w hw
    split at h
    · rename_i hoffence
      cases h
      exact (Json.valueOfOctets_plain hw).storable hoffence
    · cases h

/-! ## Answers -/

/-- An answer about the tree changes nothing. -/
theorem answerTree_session (s : Session) (payload : List (String × Value)) (applied : Bool)
    (warnings : List Issue) : (s.answerTree payload applied warnings).session = s := by
  unfold answerTree
  split <;> rfl

theorem answerEdit_session (s : Session) (r : Except Fault Bool × Store) :
    (s.answerEdit r).session = s.withStore r.2 := by
  obtain ⟨result, store⟩ := r
  cases result with
  | error f => rfl
  | ok applied => exact answerTree_session ..

theorem answerActions_session (s : Session) (payload : List (String × Value))
    (warnings : List Issue) (r : Except Fault Bool × Store) :
    (s.answerActions payload warnings r).session = s.withStore r.2 := by
  obtain ⟨result, store⟩ := r
  cases result with
  | error f => rfl
  | ok applied => exact answerTree_session ..

theorem answerInsertion_session (s : Session) (i : Store.Insertion) :
    (s.answerInsertion i).session = { s with store := i.store, drawn := i.drawn } := by
  unfold answerInsertion
  simp only
  split
  · rfl
  · exact answerTree_session ..

/-! ## Edits -/

/-- A session with a tree that was changed once at most, by values of a kind, and with the data and
the replies of before. -/
structure EditedBy (P : Value → Prop) (s t : Session) : Prop where
  root : TreeStep P s.store.root t.store.root
  context : t.store.context = s.store.context
  selected : s.store.SelectsText → t.store.SelectsText
  replies : t.replies = s.replies

variable {P : Value → Prop}

theorem EditedBy.same : EditedBy P s s := ⟨.same, rfl, id, rfl⟩

section Edits

variable (hP : ∀ v, v.Storable → P v)

include hP

theorem addChildCall_editedBy (parentId : String) :
    EditedBy P s (s.addChildCall parentId body).session := by
  refine withFields_cases (P := fun o => EditedBy P s o.session) (fun _ _ _ _ _ => .same)
    fun fields hfields => ?_
  simp only
  split
  · rw [answerInsertion_session]
    have hnode := Storable.closed.field (readBody_storable hfields) "node"
    exact ⟨s.store.insert_step _ _ (hP _ hnode), s.store.insert_context ..,
      fun h => Store.insert_selectsText h .., rfl⟩
  · split
    · exact .same
    · rw [answerInsertion_session]
      exact ⟨s.store.add_step _ _ _ _ fun _ _ hnode => hP _ (Fresh.componentOf_storable hnode),
        s.store.add_context .., fun h => Store.add_selectsText h .., rfl⟩

theorem patchNodeCall_editedBy (id : String) :
    EditedBy P s (s.patchNodeCall id body).session := by
  refine withFields_cases (P := fun o => EditedBy P s o.session) (fun _ _ _ _ _ => .same)
    fun fields hfields => ?_
  rw [answerEdit_session]
  exact ⟨s.store.update_step _ (hP _ (readBody_storable hfields)), s.store.commit_context _,
    fun h => Store.commit_selectsText h _, rfl⟩

theorem loadDocumentCall_editedBy : EditedBy P s (s.loadDocumentCall body).session := by
  have hedited : EditedBy P s (s.withStore (Document.accept s.store (.octets body)).2) := by
    refine ⟨s.store.accept_step fun document root hdocument hroot hoffence => ?_,
      s.store.accept_context _, fun h => Store.accept_selectsText h _, rfl⟩
    have hplain := (Document.ofSource_plain hdocument (.atom _)).get? hroot
    exact hP _ (hplain.storable hoffence)
  unfold loadDocumentCall
  simp only
  split
  · exact hedited
  · split <;> exact hedited

end Edits

theorem deleteNode_editedBy (id : String) :
    EditedBy P s (s.answerEdit (s.store.remove (.text id))).session := by
  rw [answerEdit_session]
  exact ⟨s.store.remove_step _, s.store.remove_context _, fun h => Store.remove_selectsText h _,
    rfl⟩

theorem reorderCall_editedBy (id : String) : EditedBy P s (s.reorderCall id body).session := by
  refine withBody_cases (P := fun o => EditedBy P s o.session) (fun _ _ _ _ _ => .same)
    fun v _ => ?_
  simp only
  split
  · exact .same
  · rw [answerEdit_session]
    exact ⟨s.store.reorder_step _ _, s.store.commit_context _,
      fun h => Store.commit_selectsText h _, rfl⟩

theorem moveCall_editedBy (id : String) : EditedBy P s (s.moveCall id body).session := by
  refine withFields_cases (P := fun o => EditedBy P s o.session) (fun _ _ _ _ _ => .same)
    fun fields _ => ?_
  simp only
  split
  · exact .same
  · split
    · exact .same
    · rw [answerEdit_session]
      exact ⟨s.store.move_step _ _ _, s.store.commit_context _,
        fun h => Store.commit_selectsText h _, rfl⟩

theorem selectCall_editedBy : EditedBy P s (s.selectCall body).session := by
  refine withBody_cases (P := fun o => EditedBy P s o.session) (fun _ _ _ _ _ => .same)
    fun v _ => ?_
  simp only
  split
  · rename_i hid
    exact ⟨.same, rfl, fun _ => Bool.or_eq_true_iff.mp hid, rfl⟩
  · exact .same

/-! ## Edits of actions -/

/-- Nothing was done but a draw, or storable actions were put into a node for an event. -/
inductive ActionsPut (s : Session) (id event : String) (t : Session) : Prop where
  | same (store : t.store = s.store) (replies : t.replies = s.replies)
  | put {node : Value} {events : Fields} {actions : List Value}
      (found : Tree.find s.store.root (.text id) = .ok (some node))
      (listed : Events.ofNode node = .ok events) (storable : ∀ a ∈ actions, a.Storable)
      (store : t.store = (s.putActions id event events actions).2) (replies : t.replies = s.replies)

/-- What is known of the event lists of a workable node and of the actions for one event. -/
theorem events_storable {node : Value} {event : String} {events : Fields} {actions : List Value}
    (h : (do
      let events ← Events.ofNode node
      return (events, ← Events.actions events event) : Except Fault (Fields × List Value)) =
        .ok (events, actions)) (hnode : node.Workable) :
    Events.ofNode node = .ok events ∧ ∀ a ∈ actions, a.Storable := by
  obtain ⟨events', hevents, h⟩ := bind_eq_ok_iff.mp h
  obtain ⟨actions', hactions, h⟩ := bind_eq_ok_iff.mp h
  cases h
  exact ⟨hevents, Events.actions_storable hactions (Events.ofNode_holdEvents hevents hnode)⟩

section Actions

variable (hw : s.store.root.Workable)

include hw

theorem addActionCall_put (id event : String) :
    ActionsPut s id event (s.addActionCall id event body).session := by
  have error : ∀ code message path status, status ≠ 500 → ActionsPut s id event
      (Outcome.error s code message path status).session := fun _ _ _ _ _ => .same rfl rfl
  refine withBody_cases (P := fun o => ActionsPut s id event o.session) error fun v _ => ?_
  simp only
  split
  · exact error _ _ _ _ (by decide)
  · rename_i kind _
    refine withNode_cases (P := fun o => ActionsPut s id event o.session) error
      (fun _ _ => .same rfl rfl)
      fun node hnode => ?_
    split
    · exact .same rfl rfl
    · rename_i events hevents
      split
      · exact .same rfl rfl
      · rename_i items hitems
        rw [answerActions_session]
        have hhold := Events.ofNode_holdEvents hevents (Tree.workable_of_find hw hnode)
        refine .put hnode hevents (fun a ha => ?_) rfl rfl
        rcases List.mem_append.mp ha with ha | ha
        · exact Events.actions_storable hitems hhold a ha
        · rw [List.mem_singleton.mp ha]
          exact Events.newAction_storable ..

theorem patchActionCall_put (id event actionId : String) :
    ActionsPut s id event (s.patchActionCall id event actionId body).session := by
  have error : ∀ code message path status, status ≠ 500 → ActionsPut s id event
      (Outcome.error s code message path status).session := fun _ _ _ _ _ => .same rfl rfl
  refine withFields_cases (P := fun o => ActionsPut s id event o.session) error
    fun config hconfig => ?_
  refine withNode_cases (P := fun o => ActionsPut s id event o.session) error
      (fun _ _ => .same rfl rfl)
    fun node hnode => ?_
  split
  · exact .same rfl rfl
  · rename_i events actions hevents
    obtain ⟨hlisted, hactions⟩ := events_storable hevents (Tree.workable_of_find hw hnode)
    split
    · exact error _ _ _ _ (by decide)
    · split
      · exact .same rfl rfl
      · rename_i made hmade
        rw [answerActions_session]
        exact .put hnode hlisted
          (Events.reconfigure_storable hmade (readBody_storable hconfig) hactions) rfl rfl

theorem deleteActionCall_put (id event actionId : String) :
    ActionsPut s id event (s.deleteActionCall id event actionId).session := by
  refine withNode_cases (P := fun o => ActionsPut s id event o.session)
    (fun _ _ _ _ _ => .same rfl rfl) (fun _ _ => .same rfl rfl) fun node hnode => ?_
  split
  · exact .same rfl rfl
  · rename_i events actions hevents
    obtain ⟨hlisted, hactions⟩ := events_storable hevents (Tree.workable_of_find hw hnode)
    rw [answerActions_session]
    exact .put hnode hlisted (fun a ha => hactions a (List.mem_filter.mp ha).1) rfl rfl

/-- A call that edits actions puts them into the node and the event that it names. -/
theorem call_put {c : Call} {id event : String} (hc : c.actionsOf? = some (id, event)) :
    ActionsPut s id event (s.call body c).session := by
  cases c with
  | addAction id event =>
    cases hc
    exact addActionCall_put hw id event
  | patchAction id event actionId =>
    cases hc
    exact patchActionCall_put hw id event actionId
  | deleteAction id event actionId =>
    cases hc
    exact deleteActionCall_put hw id event actionId
  | _ => cases hc

end Actions

/-- The event lists that can be put into a node are of a kind, for every list of storable
actions. -/
def PutsOnly (P : Value → Prop) (s : Session) (id event : String) : Prop :=
  ∀ (node : Value) (events : Fields) (actions : List Value),
    Tree.find s.store.root (.text id) = .ok (some node) → Events.ofNode node = .ok events →
    (∀ a ∈ actions, a.Storable) →
    P (.ofFields [("events", .object (Fields.set events event (.list actions)))])

theorem ActionsPut.editedBy {id event : String} {t : Session} (h : ActionsPut s id event t)
    (hput : PutsOnly P s id event) : EditedBy P s t := by
  cases h with
  | same hstore hreplies =>
    refine ⟨?_, ?_, ?_, hreplies⟩ <;> rw [hstore]
    · exact .same
    · exact fun h => h
  | @put node events actions hfound hlisted hactions hstore hreplies =>
    refine ⟨?_, ?_, ?_, hreplies⟩ <;> rw [hstore]
    · exact s.store.update_step _ (hput node events actions hfound hlisted hactions)
    · exact s.store.commit_context _
    · exact fun h => Store.commit_selectsText h _

/-! ## All calls -/

/-- Every call that only edits changes the tree once at most, by values of each kind that has all
that can be read and all that can be put into nodes for events. -/
theorem call_editedBy (hP : ∀ v, v.Storable → P v) (hw : s.store.root.Workable)
    (body : List UInt8) {c : Call} (hc : c.onlyEdits = true)
    (hput : ∀ id event, c.actionsOf? = some (id, event) → PutsOnly P s id event) :
    EditedBy P s (s.call body c).session := by
  cases c with
  | health => exact .same
  | tree =>
    show EditedBy P s s.treeCall.session
    unfold treeCall
    split <;> exact .same
  | preview =>
    show EditedBy P s (s.answerOf "root" s.store.preview).session
    unfold answerOf
    split <;> exact .same
  | node id =>
    refine withNode_cases (P := fun o => EditedBy P s o.session) (fun _ _ _ _ _ => .same)
      (fun _ _ => .same) fun node _ => ?_
    split <;> exact .same
  | addChild parentId => exact addChildCall_editedBy hP parentId
  | patchNode id => exact patchNodeCall_editedBy hP id
  | deleteNode id => exact deleteNode_editedBy id
  | reorder id => exact reorderCall_editedBy id
  | move id => exact moveCall_editedBy id
  | select => exact selectCall_editedBy
  | addAction id event => exact (call_put hw rfl).editedBy (hput id event rfl)
  | patchAction id event actionId => exact (call_put hw rfl).editedBy (hput id event rfl)
  | deleteAction id event actionId => exact (call_put hw rfl).editedBy (hput id event rfl)
  | context => exact .same
  | document => exact .same
  | loadDocument => exact loadDocumentCall_editedBy hP
  | resetSession => cases hc
  | runEvent id event => cases hc
  | putContext key => cases hc

end Session

end PageBuilder
