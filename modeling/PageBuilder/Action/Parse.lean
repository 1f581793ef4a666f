import PageBuilder.Action.Basic
import PageBuilder.Issue

/-!
Actions from values. A value that is no action is refused with the first reason that is found and
the path of what is wrong.
-/

namespace PageBuilder

namespace Refusal

inductive Cause where
  | notObject
  | kind (shown : String)
  | id
  | config
  | stateKey
  | url
  | method (shown : String)
  | mapping
  | mappingKey
  | mappingPath
  deriving DecidableEq

def Cause.code : Cause → IssueCode
  | notObject => .actionInvalid
  | id => .actionInvalid
  | kind _ => .actionTypeUnknown
  | _ => .actionConfigInvalid

def Cause.message : Cause → String
  | notObject => "action must be object"
  | kind shown => "Unknown action type: " ++ shown
  | id => "id must be string"
  | config => "config must be object"
  | stateKey => "setState requires key"
  | url => "n8n-webhook requires url"
  | method shown => "Unsupported method: " ++ shown
  | mapping => "responseMapping must be object"
  | mappingKey => "responseMapping keys must be non-empty strings"
  | mappingPath => "responseMapping paths must be non-empty strings"

end Refusal

/-- Why a value is no action, and where in the list of actions. -/
structure Refusal where
  cause : Refusal.Cause
  path : String
  deriving DecidableEq

def Refusal.toIssue (r : Refusal) (detail : Value) : Issue :=
  ⟨r.cause.code, r.cause.message, some r.path, detail⟩

/-- The refusal as one line. -/
def Refusal.message (r : Refusal) : String :=
  let base := r.cause.code.text ++ ": " ++ r.cause.message
  if r.path.isEmpty then base else base ++ " (path=" ++ r.path ++ ")"

namespace Action

/-! ## Parts -/

/-- A text that is not empty. -/
def name? : Value → Option String
  | .text s => if s.isEmpty then none else some s
  | _ => none

def parseId (path : String) : Value → Except Refusal String
  | .null => .ok ""
  | .text s => .ok s
  | _ => .error ⟨.id, path ++ ".id"⟩

def parseConfig (path : String) : Value → Except Refusal Fields
  | .null => .ok []
  | .object fields => .ok fields
  | _ => .error ⟨.config, path ++ ".config"⟩

def parseMethod (path : String) (v : Value) : Except Refusal Method :=
  if !v.truthy then .ok .post
  else match v with
    | .text s =>
      match Method.ofText? s with
      | some method => .ok method
      | none => .error ⟨.method s, path ++ ".method"⟩
    | v => .error ⟨.method v.display, path ++ ".method"⟩

def parseTargets (path : String) : Fields → Except Refusal (List (String × String))
  | [] => .ok []
  | (.text "", _) :: _ => .error ⟨.mappingKey, path⟩
  | (.text key, v) :: rest =>
    match name? v with
    | none => .error ⟨.mappingPath, path ++ "." ++ key⟩
    | some source => (parseTargets path rest).map fun others => (key, source) :: others
  | _ => .error ⟨.mappingKey, path⟩

def parseMapping (path : String) : Value → Except Refusal (List (String × String))
  | .null => .ok []
  | .text "" => .ok []
  | .object fields => parseTargets path fields
  | _ => .error ⟨.mapping, path⟩

/-! ## Actions -/

def parseWebhook (id path : String) (config : Fields) : Except Refusal Webhook :=
  match name? (Fields.field config "url") with
  | none => .error ⟨.url, path ++ ".url"⟩
  | some url => do
    let method ← parseMethod path (Fields.field config "method")
    let mapping ← parseMapping (path ++ ".responseMapping") (Fields.field config "responseMapping")
    return ⟨id, url, method, Fields.field config "body", mapping⟩

def parseKind (id path : String) (config : Fields) : ActionKind → Except Refusal Action
  | .setState =>
    match name? (Fields.field config "key") with
    | none => .error ⟨.stateKey, path ++ ".key"⟩
    | some key => .ok (.setState id key (Fields.field config "value"))
  | .consoleLog => .ok (.consoleLog id (Fields.field config "message"))
  | .alert => .ok (.alert id (Fields.field config "message"))
  | .webhook => (parseWebhook id path config).map .webhook

/-- The action that the value at a path is. -/
def parse (path : String) (raw : Value) : Except Refusal Action :=
  match raw.fields? with
  | none => .error ⟨.notObject, path⟩
  | some fields =>
    let kindValue := Fields.field fields "type"
    match ActionKind.ofValue? kindValue with
    | none => .error ⟨.kind kindValue.display, path ++ ".type"⟩
    | some kind => do
      let id ← parseId path (Fields.field fields "id")
      let config ← parseConfig path (Fields.field fields "config")
      parseKind id (path ++ ".config") config kind

end Action

end PageBuilder
