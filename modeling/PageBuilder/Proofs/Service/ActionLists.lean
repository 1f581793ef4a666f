import PageBuilder.Proofs.Service.Answers
import PageBuilder.Proofs.Tree.InPlace

/-!
What the calls about the actions of a node find, and what they put there, in trees of any shape.

* `Finds`: the node, its event lists and its actions for an event;
* `withActions`: the session with other actions for the event;
* `serve_addAction`, `serve_patchAction`, `serve_deleteAction`: what the calls make of a session;
* `finds_withActions`, `withActions_withActions`: what was put is found by the next call, which
  leaves nothing else of it;
* `serve_addAction_deleteAction`, `serve_addAction_patchAction`: a call after an action was added.
-/

namespace PageBuilder

/-- What of a draw is the identifier of an action. -/
def IdSource.actionId (source : IdSource) (number : Nat) : String :=
  String.ofList ((source.draw number).toList.take Events.actionIdLength)

/-! ## Event lists that are there -/

namespace Events

theorem ofNode_object {n : Value} {events : Fields} (h : n.field "events" = .object events) :
    ofNode n = .ok events := by
  rw [ofNode, h]
  cases events <;> rfl

theorem ofNode_null {n : Value} (h : n.field "events" = .null) : ofNode n = .ok [] := by
  rw [ofNode, h]
  rfl

theorem actions_of_items? {events : Fields} {event : String} {items : List Value}
    (h : (Fields.field events event).items? = some items) : actions events event = .ok items := by
  unfold actions
  rcases Value.items?_eq_some_iff.mp h with h | h <;> rw [h] <;> cases items <;> rfl

theorem actions_null {events : Fields} {event : String} (h : Fields.field events event = .null) :
    actions events event = .ok [] := by
  rw [actions, h]
  rfl

section Action

variable {v : Value} {actionId : String} {items : List Value}

theorem isAction_iff : isAction actionId v = true ↔ v.field "id" = .text actionId := by
  rw [isAction, Bool.and_eq_true, Value.isTextOf_iff]
  refine ⟨And.right, fun h => ⟨?_, h⟩⟩
  cases v with
  | object fields => rfl
  | _ => cases h

theorem isAction_eq_false_iff : isAction actionId v = false ↔ v.field "id" ≠ .text actionId := by
  rw [← Bool.not_eq_true, isAction_iff]

/-- No action is left out just if none has the identifier. -/
theorem filter_eq_self_iff : (items.filter fun a => !isAction actionId a) = items ↔
    ∀ a ∈ items, a.field "id" ≠ .text actionId := by
  rw [List.filter_eq_self]
  refine forall₂_congr fun a _ => ?_
  rw [Bool.not_eq_true', isAction_eq_false_iff]

end Action

end Events

namespace Session

open PageBuilder.Tree (Visit editAt putField locate)

variable {s : Session} {id event actionId : String} {v w : Visit} {events : Fields}
  {items : List Value}

/-- What a call about the actions of a node finds: the node, its event lists, and its actions for
the event. -/
structure Finds (s : Session) (id event : String) (v : Visit) (events : Fields)
    (items : List Value) : Prop where
  located : locate s.store.root (.text id) = .ok (some v)
  listed : Events.ofNode v.node = .ok events
  actions : Events.actions events event = .ok items

/-- Event lists with one list in the place of the one for an event. -/
def relisted (events : Fields) (event : String) (items : List Value) : Value :=
  .object (Fields.set events event (.list items))

/-- The session with other actions of a node for an event. -/
def withActions (s : Session) (v : Visit) (events : Fields) (event : String)
    (items : List Value) : Session :=
  s.withStore (s.store.withRoot
    (editAt v.address (putField "events" (relisted events event items)) s.store.root))

/-- The session after a draw. -/
def afterDraw (s : Session) : Session := { s with drawn := s.drawn + 1 }

theorem Finds.afterDraw (h : s.Finds id event v events items) :
    s.afterDraw.Finds id event v events items := ⟨h.located, h.listed, h.actions⟩

theorem Finds.isObject (h : s.Finds id event v events items) : v.node.isObject = true :=
  (Tree.locate_eq h.located).1.isObject

/-- What a call finds is the only thing that it finds. -/
theorem Finds.unique {events' : Fields} {items' : List Value}
    (h : s.Finds id event v events items) (h' : s.Finds id event w events' items') :
    v = w ∧ events = events' ∧ items = items' := by
  obtain rfl : v = w := Option.some.inj (Except.ok.inj (h.located.symm.trans h'.located))
  obtain rfl : events = events' := Except.ok.inj (h.listed.symm.trans h'.listed)
  exact ⟨rfl, rfl, Except.ok.inj (h.actions.symm.trans h'.actions)⟩

/-! ## Calls -/

theorem withNode_of_locate (h : locate s.store.root (.text id) = .ok (some v))
    (next : Value → Outcome) : s.withNode id next = next v.node := by
  rw [withNode, Tree.find, h]
  rfl

theorem putActions_eq (h : locate s.store.root (.text id) = .ok (some v)) (events : Fields)
    (event : String) (items : List Value) :
    s.putActions id event events items =
      (.ok true, (s.withActions v events event items).store) := by
  show s.store.commit (Tree.update s.store.root (.text id) _) = _
  rw [show Value.ofFields [("events", .object (Fields.set events event (.list items)))] =
    .object [(.text "events", relisted events event items)] from rfl,
    Tree.update_putField h (by decide)]
  rfl

/-- Event lists and actions are read as they are found. -/
theorem Finds.read (h : s.Finds id event v events items) :
    (do
      let events ← Events.ofNode v.node
      return (events, ← Events.actions events event) : Except Fault (Fields × List Value)) =
      .ok (events, items) := by
  rw [h.listed]
  exact congrArg (· >>= fun actions => pure (events, actions)) h.actions

theorem finds_of_read (hv : locate s.store.root (.text id) = .ok (some v))
    (h : (do
      let events ← Events.ofNode v.node
      return (events, ← Events.actions events event) : Except Fault (Fields × List Value)) =
      .ok (events, items)) : s.Finds id event v events items := by
  obtain ⟨events', hevents, h⟩ := bind_eq_ok_iff.mp h
  obtain ⟨items', hitems, h⟩ := bind_eq_ok_iff.mp h
  cases h
  exact ⟨hv, hevents, hitems⟩

section Serve

variable {q : Inquiry}

theorem serve_session_of_call {c : Call} (hq : Call.ofRequest? q.method q.path = some c) :
    (s.serve q).2 = (s.call q.body c).session := by
  rw [serve_session, outcome_of_call hq]

/-- An action that is deleted is taken out of the list; the others stay, in order. -/
theorem serve_deleteAction
    (hq : Call.ofRequest? q.method q.path = some (.deleteAction id event actionId))
    (h : s.Finds id event v events items) :
    (s.serve q).2 =
      s.withActions v events event (items.filter fun a => !Events.isAction actionId a) := by
  rw [serve_session_of_call hq]
  show (s.deleteActionCall id event actionId).session = _
  rw [deleteActionCall, withNode_of_locate h.located, h.read]
  simp only
  rw [answerActions_session, putActions_eq h.located]
  rfl

/-- Where there are no lists to be found, nothing is deleted. -/
theorem serve_deleteAction_of_not_finds
    (hq : Call.ofRequest? q.method q.path = some (.deleteAction id event actionId))
    (h : ∀ v events items, ¬ s.Finds id event v events items) : (s.serve q).2 = s := by
  rw [serve_session_of_call hq]
  show (s.deleteActionCall id event actionId).session = s
  unfold deleteActionCall withNode
  split
  · rfl
  · rfl
  · rename_i node hnode
    obtain ⟨v, hv, rfl⟩ : ∃ v, locate s.store.root (.text id) = .ok (some v) ∧ v.node = node := by
      obtain ⟨found, hfound, hmap⟩ := map_eq_ok_iff.mp hnode
      obtain ⟨v, rfl, hv⟩ := Option.map_eq_some_iff.mp hmap
      exact ⟨v, hfound, hv⟩
    simp only
    split
    · rfl
    · rename_i events items hread
      exact absurd (finds_of_read hv hread) (h v events items)

/-- The configuration of an action that is there is changed, wherever it is in the list. -/
theorem serve_patchAction {config : Fields} {made : List Value}
    (hq : Call.ofRequest? q.method q.path = some (.patchAction id event actionId))
    (hbody : readBody q.body = .ok (.object config)) (h : s.Finds id event v events items)
    (hany : items.any (Events.isAction actionId) = true)
    (hmade : Events.reconfigure actionId config items = .ok made) :
    (s.serve q).2 = s.withActions v events event made := by
  rw [serve_session_of_call hq]
  show (s.patchActionCall id event actionId q.body).session = _
  rw [patchActionCall, withFields, withBody, hbody]
  simp only [Value.fields?]
  rw [withNode_of_locate h.located, h.read]
  simp only [hany, hmade, Bool.not_true, Bool.false_eq_true, ↓reduceIte]
  rw [answerActions_session, putActions_eq h.located]
  rfl

/-- The identifier of the action that is added to a session. -/
def newId (s : Session) : String := s.source.actionId (s.drawn + 1)

/-- The action that is added to a session. -/
def newAction (s : Session) (kind : ActionKind) : Value :=
  .ofFields [
    ("id", .text s.newId),
    ("type", .text kind.text),
    ("config", .object kind.defaultConfig)]

/-- The new action is left out with the others of its identifier. -/
theorem filter_newAction (kind : ActionKind) :
    ((items ++ [s.newAction kind]).filter fun a => !Events.isAction s.newId a) =
      items.filter fun a => !Events.isAction s.newId a := by
  have hself : Events.isAction s.newId (s.newAction kind) = true := Events.isAction_iff.mpr rfl
  rw [List.filter_append, List.filter_singleton, hself]
  exact List.append_nil _

theorem outcome_addAction {body : Value} {kind : ActionKind}
    (hq : Call.ofRequest? q.method q.path = some (.addAction id event))
    (hbody : readBody q.body = .ok body)
    (hkind : ActionKind.ofValue? (body.field "type") = some kind)
    (h : s.Finds id event v events items) :
    s.outcome q = (s.withActions v events event (items ++ [s.newAction kind])).afterDraw.answerTree
      [("action", s.newAction kind)] true := by
  rw [outcome_of_call hq]
  show s.addActionCall id event q.body = _
  rw [addActionCall, withBody, hbody]
  simp only [hkind]
  rw [withNode_of_locate h.located, h.listed]
  simp only [h.actions]
  rw [show { s with drawn := s.drawn + 1 : Session }.putActions id event events
      (items ++ [Events.newAction s.source (s.drawn + 1) kind]) =
    s.putActions id event events (items ++ [s.newAction kind]) from rfl, putActions_eq h.located]
  rfl

/-- An action that is added comes last. -/
theorem serve_addAction {body : Value} {kind : ActionKind}
    (hq : Call.ofRequest? q.method q.path = some (.addAction id event))
    (hbody : readBody q.body = .ok body)
    (hkind : ActionKind.ofValue? (body.field "type") = some kind)
    (h : s.Finds id event v events items) :
    (s.serve q).2 = (s.withActions v events event (items ++ [s.newAction kind])).afterDraw := by
  rw [serve_session, outcome_addAction hq hbody hkind h, answerTree_session]

end Serve

/-! ## One call after another -/

/-- What was put is found, at the same place. -/
theorem finds_withActions (h : s.Finds id event v events items) (made : List Value) :
    ∃ w, w.address = v.address ∧
      w.node = putField "events" (relisted events event made) v.node ∧
      (s.withActions v events event made).Finds id event w
        (Fields.set events event (.list made)) made := by
  have hplace : Tree.InPlace (putField "events" (relisted events event made)) :=
    Tree.inPlace_putField (by decide) (by decide) _
  obtain ⟨w, hw, haddress, hnode⟩ := Tree.locate_editAt hplace h.located
  have hevents : w.node.field "events" = .object (Fields.set events event (.list made)) := by
    rw [hnode, Tree.field_putField h.isObject]
    rfl
  exact ⟨w, haddress, hnode, hw, Events.ofNode_object hevents,
    Events.actions_of_items? (by rw [Fields.field_set]; rfl)⟩

/-- Of two lists that are put one after the other the last one stays. -/
theorem withActions_withActions (haddress : w.address = v.address) (made made' : List Value) :
    (s.withActions v events event made).withActions w (Fields.set events event (.list made))
      event made' = s.withActions v events event made' := by
  have hroot : editAt w.address
      (putField "events" (relisted (Fields.set events event (.list made)) event made'))
        (editAt v.address (putField "events" (relisted events event made)) s.store.root) =
      editAt v.address (putField "events" (relisted events event made')) s.store.root := by
    rw [haddress, Tree.editAt_editAt, relisted, Fields.set_set]
    simp only [Tree.putField_putField]
    rfl
  rw [withActions, withActions, withActions, ← hroot]
  rfl

/-- Lists that are put in the same place differ if their actions do. -/
theorem withActions_inj (h : s.Finds id event v events items) {made made' : List Value}
    (heq : (s.withActions v events event made).afterDraw =
      (s.withActions v events event made').afterDraw) : made = made' := by
  obtain ⟨w, -, -, hw⟩ := finds_withActions h made
  obtain ⟨w', -, -, hw'⟩ := finds_withActions h made'
  have hboth := hw.afterDraw
  rw [heq] at hboth
  exact (hboth.unique hw'.afterDraw).2.2

section Added

variable {q q' : Inquiry} {body : Value} {kind : ActionKind}
  (hq : Call.ofRequest? q.method q.path = some (.addAction id event))
  (hbody : readBody q.body = .ok body) (hkind : ActionKind.ofValue? (body.field "type") = some kind)
  (h : s.Finds id event v events items)

include hq hbody hkind h

/-- What is deleted after an action was added is deleted of the longer list. -/
theorem serve_addAction_deleteAction
    (hq' : Call.ofRequest? q'.method q'.path = some (.deleteAction id event actionId)) :
    ((s.serve q).2.serve q').2 = (s.withActions v events event
      ((items ++ [s.newAction kind]).filter fun a => !Events.isAction actionId a)).afterDraw := by
  obtain ⟨w, haddress, -, hw⟩ := finds_withActions h (items ++ [s.newAction kind])
  rw [serve_addAction hq hbody hkind h, serve_deleteAction hq' hw.afterDraw]
  exact congrArg afterDraw (withActions_withActions haddress _ _)

/-- What is configured after an action was added is one of the longer list. -/
theorem serve_addAction_patchAction {config : Fields} {made : List Value}
    (hq' : Call.ofRequest? q'.method q'.path = some (.patchAction id event actionId))
    (hbody' : readBody q'.body = .ok (.object config))
    (hany : (items ++ [s.newAction kind]).any (Events.isAction actionId) = true)
    (hmade : Events.reconfigure actionId config (items ++ [s.newAction kind]) = .ok made) :
    ((s.serve q).2.serve q').2 = (s.withActions v events event made).afterDraw := by
  obtain ⟨w, haddress, -, hw⟩ := finds_withActions h (items ++ [s.newAction kind])
  rw [serve_addAction hq hbody hkind h, serve_patchAction hq' hbody' hw.afterDraw hany hmade]
  exact congrArg afterDraw (withActions_withActions haddress _ _)

end Added

end Session

end PageBuilder
