import PageBuilder.Fault
import PageBuilder.Value.Display
import PageBuilder.Value.Equality

/-!
Actions: what a component does on an event.
-/

namespace PageBuilder

inductive ActionKind where
  | setState
  | consoleLog
  | alert
  | webhook
  deriving DecidableEq

namespace ActionKind

def text : ActionKind → String
  | setState => "setState"
  | consoleLog => "consoleLog"
  | alert => "alert"
  | webhook => "n8n-webhook"

def all : List ActionKind := [setState, consoleLog, alert, webhook]

def ofText? (s : String) : Option ActionKind := all.find? fun kind => kind.text == s

def ofValue? : Value → Option ActionKind
  | .text s => ofText? s
  | _ => none

/-- The configuration that a new action starts with. -/
def defaultConfig : ActionKind → Fields
  | webhook =>
    [(.text "url", .text "https://your-n8n-instance.com/webhook/..."),
      (.text "method", .text "POST")]
  | setState => [(.text "key", .text "key"), (.text "value", .text "value")]
  | consoleLog => [(.text "message", .text "Hello World")]
  | alert => [(.text "message", .text "Alert Message")]

/-- The starting configuration for what should be the name of a kind. -/
def defaultConfigOf (v : Value) : Except Fault Value :=
  match ofValue? v with
  | some kind => .ok (.object kind.defaultConfig)
  | none => .error (.actionKind v.display)

end ActionKind

inductive Method where
  | get
  | post
  | put
  | patch
  | delete
  deriving DecidableEq

namespace Method

def text : Method → String
  | get => "GET"
  | post => "POST"
  | put => "PUT"
  | patch => "PATCH"
  | delete => "DELETE"

def all : List Method := [get, post, put, patch, delete]

/-- The capital letters of a letter, as far as they are ASCII; other letters name no method. -/
def capitals (c : Char) : List Char :=
  match c with
  | 'ß' => ['S', 'S']
  | 'ı' => ['I']
  | 'ſ' => ['S']
  | 'ﬀ' => ['F', 'F']
  | 'ﬁ' => ['F', 'I']
  | 'ﬂ' => ['F', 'L']
  | 'ﬃ' => ['F', 'F', 'I']
  | 'ﬄ' => ['F', 'F', 'L']
  | 'ﬅ' => ['S', 'T']
  | 'ﬆ' => ['S', 'T']
  | c => [c.toUpper]

/-- Methods are named in letters of any case. -/
def ofText? (s : String) : Option Method :=
  all.find? fun method => method.text.toList == s.toList.flatMap capitals

end Method

structure Webhook where
  id : String
  url : String
  method : Method
  body : Value
  /-- Context keys with the paths of the response that they take their values from. -/
  mapping : List (String × String)

inductive Action where
  | setState (id key : String) (value : Value)
  | consoleLog (id : String) (message : Value)
  | alert (id : String) (message : Value)
  | webhook (hook : Webhook)

namespace Action

def id : Action → String
  | setState id .. => id
  | consoleLog id _ => id
  | alert id _ => id
  | webhook hook => hook.id

def kind : Action → ActionKind
  | setState .. => .setState
  | consoleLog .. => .consoleLog
  | alert .. => .alert
  | webhook _ => .webhook

end Action

end PageBuilder
