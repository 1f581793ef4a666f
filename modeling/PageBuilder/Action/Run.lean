import PageBuilder.Action.Plan
import PageBuilder.Action.RequestBody
import PageBuilder.Action.Trace

/-!
Running actions one after the other. An action that fails is reported, and the next one runs; what
an action did before it failed stays done.
-/

namespace PageBuilder

/-- Why an action failed after it was found to be one. -/
inductive Failure where
  | fault (f : Fault)
  | unwritable (f : Json.WriteFault)
  | notifier (text : String)
  | sending (kind : SendFailure) (message : String)
  | response (f : Json.ReadFault)

namespace Failure

def code : Failure → IssueCode
  | sending kind _ => if kind.isTransport then .requestFailed else .actionFailed
  | response _ => .responseInvalid
  | _ => .actionFailed

/-- A failure of which nothing is said is reported by its name. -/
def named (name text : String) : String := if text.isEmpty then name else text

def message : Failure → String
  | fault f => f.message
  | unwritable f => f.message
  | notifier text => named SendFailure.runtime.name text
  | sending kind text => named kind.name text
  | response f => "Response is not JSON: " ++ f.message

end Failure

/-- What becomes of alerts: nothing, or a call with each message, which may be refused. -/
inductive Notifier where
  | silent
  | calls (refusal? : Value → Option Failure)

namespace Notifier

def records : Notifier := calls fun _ => none

def fails (text : String) : Notifier := calls fun _ => some (.notifier text)

end Notifier

/-- What a run is given besides the data. -/
structure Surroundings where
  notifier : Notifier
  timeout : Value

/-- The data context and the replies that are left, with what was done up to then; with a failure
if the action failed. -/
structure Step where
  context : Fields
  replies : List Reply
  trace : Trace := {}
  failure : Option Failure := none

namespace Step

def failed (context : Fields) (replies : List Reply) (failure : Failure) : Step :=
  { context, replies, failure := some failure }

/-- Sets a key of the data context; the missing marker removes it. -/
def assign (context : Fields) (key : String) (v : Value) : Fields :=
  if v.isMissing then Fields.erase context key else Fields.set context key v

/-! ## Notices and state -/

def notice (kind : NoticeKind) (id : String) (message : Value) : Notice :=
  ⟨kind, id, message.jsonable⟩

def log (merged : Value) (context : Fields) (replies : List Reply) (id : String)
    (message : Value) : Step :=
  match Template.evaluate merged message with
  | .error f => failed context replies (.fault f)
  | .ok v => { context, replies, trace := { notices := [notice .log id v] } }

def alert (notifier : Notifier) (merged : Value) (context : Fields) (replies : List Reply)
    (id : String) (message : Value) : Step :=
  match Template.evaluate merged message with
  | .error f => failed context replies (.fault f)
  | .ok v =>
    let notices := [notice .alert id v]
    match notifier with
    | .silent => { context, replies, trace := { notices } }
    | .calls refusal? =>
      match refusal? v with
      | some failure => failed context replies failure
      | none => { context, replies, trace := { notices, alerts := [v] } }

def setState (merged : Value) (context : Fields) (replies : List Reply) (key : String)
    (value : Value) : Step :=
  match Template.evaluate merged value with
  | .error f => failed context replies (.fault f)
  | .ok v => { context := assign context key v, replies, trace := { stateKeys := [key] } }

/-! ## Webhooks -/

/-- The text that goes with a request; none for a request that only reads. -/
def content (merged : Value) (context : Fields) (hook : Webhook) :
    Except Failure (Option String) :=
  if hook.method = .get then .ok none
  else do
    let body ← (RequestBody.build merged (.object context) hook.body).mapError .fault
    let text ← (Json.text .spaced body).mapError .unwritable
    return some text

def mappingMiss (path key source : String) : Issue :=
  ⟨.mappingMiss, "Response path not found", some (path ++ ".config.responseMapping"),
    .ofFields [("key", .text key), ("path", .text source)]⟩

/-- Takes values from a response into the data context, target by target. -/
def applyTargets (path : String) (payload : Value) (replies : List Reply) :
    List (String × String) → Fields → Step
  | [], context => { context, replies }
  | (key, source) :: rest, context =>
    match Path.lookup payload source with
    | .error f => failed context replies (.fault f)
    | .ok v =>
      if v.isMissing then
        let after := applyTargets path payload replies rest context
        { after with trace := { warnings := [mappingMiss path key source] } ++ after.trace }
      else
        let after := applyTargets path payload replies rest (assign context key v)
        { after with trace := { stateKeys := [key] } ++ after.trace }

/-- The context key of a response that no mapping is given for. -/
def lastResultKey : String := "lastResult"

def applyPayload (path : String) (hook : Webhook) (payload : Value) (context : Fields)
    (replies : List Reply) : Step :=
  if hook.mapping.isEmpty then
    { context := assign context lastResultKey payload, replies,
      trace := { stateKeys := [lastResultKey] } }
  else applyTargets path payload replies hook.mapping context

/-- What an answered request does. A status that tells of an error makes no difference. -/
def respond (path : String) (hook : Webhook) (status : Int) (body : List UInt8)
    (context : Fields) (replies : List Reply) : Step :=
  match Json.valueOfOctets .strict body with
  | .error f => failed context replies (.response f)
  | .ok payload =>
    let after := applyPayload path hook payload context replies
    let delivery : Delivery := ⟨hook.id, hook.url, hook.method, status⟩
    { after with trace := { deliveries := [delivery] } ++ after.trace }

def webhook (timeout : Value) (path : String) (merged : Value) (context : Fields)
    (replies : List Reply) (hook : Webhook) : Step :=
  match content merged context hook with
  | .error f => failed context replies f
  | .ok text =>
    let (reply, replies) := nextReply replies
    let after := match reply with
      | .failure kind message => failed context replies (.sending kind message)
      | .response status body => respond path hook status body context replies
    { after with trace := { requests := [.ofWebhook hook timeout text] } ++ after.trace }

/-! ## Actions -/

def ofAction (env : Surroundings) (path : String) (merged : Value) (context : Fields)
    (replies : List Reply) : Action → Step
  | .consoleLog id message => log merged context replies id message
  | .alert id message => alert env.notifier merged context replies id message
  | .setState _ key value => setState merged context replies key value
  | .webhook hook => webhook env.timeout path merged context replies hook

/-- The step with its failure reported. -/
def reported (path : String) (detail : Value) (s : Step) : Step :=
  match s.failure with
  | none => s
  | some f =>
    let issue : Issue := ⟨f.code, f.message, some path, detail⟩
    { s with trace := s.trace ++ { errors := [issue] }, failure := none }

/-- One entry of a list of actions. `locals` go before the data context. -/
def ofEntry (env : Surroundings) (locals : Fields) (index : Nat) (raw : Value)
    (context : Fields) (replies : List Reply) : Step :=
  let path := Plan.entryPath index
  let detail := Value.ofFields [("action_id", raw.field "id")]
  match Action.parse path raw with
  | .error r => { context, replies, trace := { errors := [r.toIssue detail] } }
  | .ok action =>
    let merged := Value.object (Fields.merge context locals)
    (ofAction env path merged context replies action).reported path detail

/-- The entries of a list of actions from place `index` on. -/
def ofEntries (env : Surroundings) (locals : Fields) (index : Nat) :
    List Value → Fields → List Reply → Step
  | [], context, replies => { context, replies }
  | raw :: rest, context, replies =>
    let first := ofEntry env locals index raw context replies
    let others := ofEntries env locals (index + 1) rest first.context first.replies
    { others with trace := first.trace ++ others.trace }

end Step

/-! ## Runs -/

/-- What a run ends with. -/
structure Run where
  context : Value
  replies : List Reply
  trace : Trace := {}

namespace Run

def refused (context : Value) (replies : List Reply) (code : IssueCode) (message path : String) :
    Run :=
  { context, replies, trace := { errors := [⟨code, message, some path, .null⟩] } }

/-- Runs what should be a list of actions. It begins with merging the local context into the data
context, which has to be an object then. -/
def entries (env : Surroundings) (locals : Fields) (actions : Value) (context : Value)
    (replies : List Reply) : Except Fault Run :=
  if !actions.truthy then .ok { context, replies }
  else match actions with
    | .list raws =>
      match context.fields? with
      | none => .error .notMapping
      | some fields =>
        let s := Step.ofEntries env locals 0 raws fields replies
        .ok ⟨.object s.context, s.replies, s.trace⟩
    | _ => .ok (refused context replies .actionsInvalid "actions must be list" "$")

def actions (env : Surroundings) (raws locals : Value) (context : Value)
    (replies : List Reply) : Except Fault Run :=
  match locals with
  | .null => entries env [] raws context replies
  | .object fields => entries env fields raws context replies
  | _ =>
    .ok (refused context replies .localContextInvalid "local context must be object" "local_ctx")

/-- A run that is given no data. -/
def withoutStore (context : Value) (replies : List Reply) : Run :=
  refused context replies .storeMissing "store dep required" "$"

/-- The actions that a node runs on an event; null if there are none. -/
def eventActions (node event : Value) : Except Fault Value :=
  match node.field "events" with
  | .object events =>
    match event.toKey? with
    | none => .error .unhashable
    | some k => .ok ((Fields.find? events k).getD .null)
  | _ => .ok .null

end Run

end PageBuilder
