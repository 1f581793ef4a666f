import PageBuilder.Service.Call
import PageBuilder.Service.Cors
import PageBuilder.Service.Events
import PageBuilder.Service.Session

/-!
The service: each call changes the session and is answered. A call that meets data of the wrong
shape has no answer of its own, and what it changed before stays changed.
-/

namespace PageBuilder

/-- The session after a call, its answer, and the requests that were sent meanwhile. -/
structure Outcome where
  session : Session
  answer : Answer
  requests : List Request := []

namespace Outcome

def error (s : Session) (code : IssueCode) (message path : String) (status : Nat := 400) :
    Outcome :=
  ⟨s, .error code message path status, []⟩

def nodeMissing (s : Session) : Outcome := error s .nodeNotFound "Node not found" "node_id" 404

def bodyNotObject (s : Session) : Outcome := error s .requestInvalid "body must be object" "$"

end Outcome

namespace Session

open Outcome (nodeMissing bodyNotObject)

/-! ## Bodies -/

/-- The value of a body, null if it is no JSON; otherwise the offence that it holds. -/
def readBody (body : List UInt8) : Except Offence Value :=
  match Json.valueOfOctets .lenient body with
  | .error _ => .ok .null
  | .ok v =>
    match v.offence? with
    | none => .ok v
    | some o => .error o

/-- Goes on with the value of a body that is free of offences. -/
def withBody (s : Session) (body : List UInt8) (next : Value → Outcome) : Outcome :=
  match readBody body with
  | .error o => .error s .requestValueInvalid o.message "$"
  | .ok v => next v

/-- Goes on with the fields of a body that is an object. -/
def withFields (s : Session) (body : List UInt8) (next : Fields → Outcome) : Outcome :=
  s.withBody body fun v =>
    match v.fields? with
    | none => bodyNotObject s
    | some fields => next fields

/-- Goes on with the node of an identifier. -/
def withNode (s : Session) (id : String) (next : Value → Outcome) : Outcome :=
  match Tree.find s.store.root (.text id) with
  | .error _ => { session := s, answer := .broken }
  | .ok none => nodeMissing s
  | .ok (some node) => next node

/-- Answers with the state of the tree after an edit. -/
def answerTree (s : Session) (payload : List (String × Value)) (applied : Bool)
    (warnings : List Issue := []) : Outcome :=
  match s.store.digest with
  | .error _ => { session := s, answer := .broken }
  | .ok digest =>
    let state := [("applied", .bool applied), ("tree_hash", .text digest),
      ("selected_id", s.store.selected)]
    { session := s, answer := .ok (payload ++ state) warnings }

def answerEdit (s : Session) : Except Fault Bool × Store → Outcome
  | (.error _, store) => { session := s.withStore store, answer := .broken }
  | (.ok applied, store) => (s.withStore store).answerTree [] applied

def answerOf (s : Session) (name : String) : Except Fault Value → Outcome
  | .error _ => { session := s, answer := .broken }
  | .ok v => { session := s, answer := .ok [(name, v)] }

/-! ## Session, tree and selection -/

def resetCall (s : Session) (body : List UInt8) : Outcome :=
  s.withBody body fun v =>
    let context := v.field "context"
    if context.isNull || context.isObject then
      let s := s.reset context
      { session := s, answer := .ok [("root", s.store.root), ("context", s.store.context)] }
    else .error s .sessionContextInvalid "context must be object" "context"

def treeCall (s : Session) : Outcome :=
  match s.store.digest with
  | .error _ => { session := s, answer := .broken }
  | .ok digest =>
    { session := s, answer := .ok [
        ("root", s.store.root), ("tree_hash", .text digest), ("selected_id", s.store.selected)] }

def nodeCall (s : Session) (id : String) : Outcome :=
  s.withNode id fun node =>
    match Tree.findParent s.store.root (.text id) with
    | .error _ => { session := s, answer := .broken }
    | .ok parent =>
      let parentId := (parent.map fun p => p.field "id").getD .null
      { session := s, answer := .ok [("node", node), ("parent_id", parentId)] }

def answerInsertion (s : Session) (i : Store.Insertion) : Outcome :=
  let s := { s with store := i.store, drawn := i.drawn }
  match i.result with
  | .error _ => { session := s, answer := .broken }
  | .ok id => s.answerTree [("id", id.elim .null .text)] id.isSome

def addChildCall (s : Session) (parentId : String) (body : List UInt8) : Outcome :=
  s.withFields body fun fields =>
    let node := Fields.field fields "node"
    let kind := Fields.field fields "type"
    if node.isObject then
      s.answerInsertion (s.store.insert s.source s.drawn (.text parentId) node)
    else if (ComponentKind.ofValue? kind).isNone then
      .error s .nodeTypeUnknown ("Unknown component type: " ++ kind.display) "type"
    else s.answerInsertion (s.store.add s.source s.drawn (.text parentId) kind)

def patchNodeCall (s : Session) (id : String) (body : List UInt8) : Outcome :=
  s.withFields body fun fields => s.answerEdit (s.store.update (.text id) (.object fields))

def reorderCall (s : Session) (id : String) (body : List UInt8) : Outcome :=
  s.withBody body fun v =>
    let direction := v.field "direction"
    if (Tree.Direction.ofValue? direction).isNone then
      .error s .directionInvalid "direction must be up or down" "direction"
    else s.answerEdit (s.store.reorder (.text id) direction)

def isInt : Value → Bool
  | .int _ => true
  | _ => false

def moveCall (s : Session) (id : String) (body : List UInt8) : Outcome :=
  s.withFields body fun fields =>
    let target := Fields.field fields "target_id"
    let index := (Fields.get? fields "index").getD (.int 0)
    if !target.isText then
      .error s .moveTargetInvalid "target_id must be string" "target_id"
    else if !isInt index then .error s .moveIndexInvalid "index must be integer" "index"
    else s.answerEdit (s.store.move (.text id) target index)

def selectCall (s : Session) (body : List UInt8) : Outcome :=
  s.withBody body fun v =>
    let id := v.field "id"
    if id.isNull || id.isText then
      { session := s.withStore (s.store.select id), answer := .ok [("selected_id", id)] }
    else .error s .selectionInvalid "id must be string or null" "id"

/-! ## Actions -/

/-- Puts the actions for an event into a node. -/
def putActions (s : Session) (id event : String) (events : Fields) (actions : List Value) :
    Except Fault Bool × Store :=
  let events := Fields.set events event (.list actions)
  s.store.update (.text id) (.ofFields [("events", .object events)])

def answerActions (s : Session) (payload : List (String × Value)) (warnings : List Issue) :
    Except Fault Bool × Store → Outcome
  | (.error _, store) => { session := s.withStore store, answer := .broken }
  | (.ok applied, store) => (s.withStore store).answerTree payload applied warnings

def addActionCall (s : Session) (id event : String) (body : List UInt8) : Outcome :=
  s.withBody body fun v =>
    let kindValue := v.field "type"
    match ActionKind.ofValue? kindValue with
    | none =>
      .error s .actionTypeUnknown ("Unknown action type: " ++ kindValue.display) "type"
    | some kind =>
      s.withNode id fun node =>
        match Events.ofNode node with
        | .error _ => { session := s, answer := .broken }
        | .ok events =>
          let s := { s with drawn := s.drawn + 1 }
          let action := Events.newAction s.source s.drawn kind
          match Events.actions events event with
          | .error _ => { session := s, answer := .broken }
          | .ok actions =>
            s.answerActions [("action", action)] []
              (s.putActions id event events (actions ++ [action]))

def patchActionCall (s : Session) (id event actionId : String) (body : List UInt8) : Outcome :=
  s.withFields body fun config =>
    s.withNode id fun node =>
      match (do
        let events ← Events.ofNode node
        return (events, ← Events.actions events event) : Except Fault (Fields × List Value)) with
      | .error _ => { session := s, answer := .broken }
      | .ok (events, actions) =>
        if !actions.any (Events.isAction actionId) then
          .error s .actionNotFound "Action not found" "action_id" 404
        else
          match Events.reconfigure actionId config actions with
          | .error _ => { session := s, answer := .broken }
          | .ok actions =>
            let plan := Plan.ofEntries 0 [] actions
            s.answerActions [] (plan.errors ++ plan.warnings)
              (s.putActions id event events actions)

def deleteActionCall (s : Session) (id event actionId : String) : Outcome :=
  s.withNode id fun node =>
    match (do
      let events ← Events.ofNode node
      return (events, ← Events.actions events event) : Except Fault (Fields × List Value)) with
    | .error _ => { session := s, answer := .broken }
    | .ok (events, actions) =>
      let kept := actions.filter fun action => !Events.isAction actionId action
      s.answerActions [] [] (s.putActions id event events kept)

/-- Alerts are not shown anywhere by the service. -/
def surroundings (s : Session) : Surroundings := ⟨.silent, s.settings.timeoutValue⟩

/-- Runs the actions of a node; what fails is told in the answer. -/
def runEventCall (s : Session) (id event : String) (body : List UInt8) : Outcome :=
  s.withBody body fun v =>
    s.withNode id fun node =>
      let run := do
        let actions ← Run.eventActions node (.text event)
        Run.actions s.surroundings actions (v.field "local_context") s.store.context s.replies
      match run with
      | .error _ => { session := s, answer := .broken }
      | .ok run =>
        let store := { s.store with context := run.context }
        let answer := Answer.ok [
          ("run_ok", .bool run.trace.ok),
          ("run_errors", Issue.listValue run.trace.errors),
          ("notices", .list (run.trace.notices.map Notice.toValue)),
          ("effects", run.trace.effects),
          ("context", run.context.jsonable)] run.trace.warnings
        ⟨{ s with store, replies := run.replies }, answer, run.trace.requests⟩

/-! ## Data context and document -/

def putContextCall (s : Session) (key : String) (body : List UInt8) : Outcome :=
  s.withBody body fun v =>
    match v.fields?.bind fun fields => Fields.get? fields "value" with
    | none => .error s .requestInvalid "value required" "value"
    | some value =>
      match s.store.setContextValue (.text key) value with
      | (.error _, store) => { session := s.withStore store, answer := .broken }
      | (.ok _, store) =>
        { session := s.withStore store, answer := .ok [("context", store.context)] }

def documentCall (s : Session) : Outcome :=
  let document := Document.exported s.settings.version s.store .null
  { session := s, answer := .ok [("document", document)] }

def loadDocumentCall (s : Session) (body : List UInt8) : Outcome :=
  let (loaded, store) := Document.accept s.store (.octets body)
  let s := s.withStore store
  if !loaded.ok then { session := s, answer := .failed 400 loaded.errors loaded.warnings }
  else
    match s.store.digest with
    | .error _ => { session := s, answer := .broken }
    | .ok digest =>
      let payload := [("version", loaded.version), ("tree_hash", .text digest)]
      { session := s, answer := .ok payload loaded.warnings }

/-! ## All calls -/

def call (s : Session) (body : List UInt8) : Call → Outcome
  | .health => { session := s, answer := .body 200 [("ok", .bool true)] }
  | .resetSession => s.resetCall body
  | .tree => s.treeCall
  | .preview => s.answerOf "root" s.store.preview
  | .node id => s.nodeCall id
  | .addChild parentId => s.addChildCall parentId body
  | .patchNode id => s.patchNodeCall id body
  | .deleteNode id => s.answerEdit (s.store.remove (.text id))
  | .reorder id => s.reorderCall id body
  | .move id => s.moveCall id body
  | .select => s.selectCall body
  | .addAction id event => s.addActionCall id event body
  | .patchAction id event actionId => s.patchActionCall id event actionId body
  | .deleteAction id event actionId => s.deleteActionCall id event actionId
  | .runEvent id event => s.runEventCall id event body
  | .context => { session := s, answer := .ok [("context", s.store.context)] }
  | .putContext key => s.putContextCall key body
  | .document => s.documentCall
  | .loadDocument => s.loadDocumentCall body

end Session

/-! ## Requests to the service -/

structure Inquiry where
  method : String
  path : String
  body : List UInt8
  origin : Option String

/-- What is sent back: status, body, the headers for the origin, and the requests that were sent
to other services. -/
structure Response where
  status : Nat
  body : Value
  headers : List (String × String)
  requests : List Request := []

/-- The body as it is written. Names that are numbers, truth values or null become texts there. -/
def Response.text (r : Response) : Except Json.WriteFault String := Json.compactText r.body

namespace Session

/-- The outcome for a path that names nothing. -/
def unknown (s : Session) : Outcome :=
  { session := s, answer := .body 404 [("detail", .text "Not Found")] }

def outcome (s : Session) (q : Inquiry) : Outcome :=
  if q.method = "OPTIONS" then { session := s, answer := .body 200 [] }
  else
    match Call.ofRequest? q.method q.path with
    | none => s.unknown
    | some call => s.call q.body call

/-- Answers a request. An answer that can not be given or not be written is an internal error,
which grants nothing to any origin. -/
def serve (s : Session) (q : Inquiry) : Response × Session :=
  let o := s.outcome q
  match o.answer.sent? with
  | some (status, body) =>
    (⟨status, body, Cors.headers s.settings.origins q.origin, o.requests⟩, o.session)
  | none => (⟨Answer.internal.1, Answer.internal.2, [], o.requests⟩, o.session)

end Session

end PageBuilder
