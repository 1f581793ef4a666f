import PageBuilder.Action.Basic
import PageBuilder.Store

/-!
The event lists of a node: lists of actions by the names of events.
-/

namespace PageBuilder.Events

/-- The event lists of a node; what is empty or missing holds none. -/
def ofNode (node : Value) : Except Fault Fields :=
  let v := node.field "events"
  if v.truthy then Store.fieldsOf v else .ok []

/-- The actions for an event. -/
def actions (events : Fields) (event : String) : Except Fault (List Value) :=
  let v := Fields.field events event
  if v.truthy then Store.itemsOf v else .ok []

def isAction (actionId : String) (v : Value) : Bool :=
  v.isObject && (v.field "id").isTextOf actionId

/-- The configuration of an action with some fields put into it. -/
def reconfigured (config : Fields) (action : Fields) : Except Fault Value :=
  let old := Fields.field action "config"
  match if old.truthy then old.fields? else some [] with
  | none => .error .notMapping
  | some old => .ok (.object (Fields.set action "config" (.object (Fields.merge old config))))

/-- Puts fields into the configuration of every action with an identifier. -/
def reconfigure (actionId : String) (config : Fields) : List Value → Except Fault (List Value)
  | [] => .ok []
  | v :: rest => do
    let first ←
      if isAction actionId v then reconfigured config ((v.fields?).getD []) else .ok v
    let others ← reconfigure actionId config rest
    return first :: others

/-- How much of a drawn text makes the identifier of an action. -/
def actionIdLength : Nat := 7

def newAction (source : IdSource) (number : Nat) (kind : ActionKind) : Value :=
  .ofFields [
    ("id", .text (String.ofList ((source.draw number).toList.take actionIdLength))),
    ("type", .text kind.text),
    ("config", .object kind.defaultConfig)]

end PageBuilder.Events
