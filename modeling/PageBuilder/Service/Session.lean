import PageBuilder.Action.Run
import PageBuilder.Document.Transfer
import PageBuilder.Settings

/-!
The session that a service keeps, and what it answers.
-/

namespace PageBuilder

/-- The store with everything outside of it: settings, identifiers, and replies to requests. -/
structure Session where
  settings : Settings
  source : IdSource
  store : Store
  drawn : Nat
  replies : List Reply

namespace Session

/-- The data context of a session that is given none. -/
def usualContext : Value :=
  .ofFields [
    ("user", .ofFields [("name", .text "John Doe"), ("email", .text "john@example.com")]),
    ("app", .ofFields [("title", .text "My Awesome App"), ("version", .text "1.0.0")])]

/-- A new store; draws and replies go on. -/
def reset (s : Session) (context : Value) : Session :=
  { s with store := .start .null (if context.isNull then usualContext else context) }

def withStore (s : Session) (store : Store) : Session := { s with store }

end Session

/-! ## Answers -/

/-- What a route answers: a status and a body, or nothing that can be written. -/
inductive Answer where
  | body (status : Nat) (fields : List (String × Value))
  | broken

namespace Answer

def ok (payload : List (String × Value)) (warnings : List Issue := []) : Answer :=
  .body 200 <| ("ok", .bool true) :: payload ++
    [("errors", .list []), ("warnings", Issue.listValue warnings)]

def failed (status : Nat) (errors warnings : List Issue) : Answer :=
  .body status [
    ("ok", .bool false),
    ("errors", Issue.listValue errors),
    ("warnings", Issue.listValue warnings)]

def error (code : IssueCode) (message path : String) (status : Nat := 400) : Answer :=
  failed status [⟨code, message, some path, .null⟩] []

/-! ## What is sent -/

/-- Fields of this kind of name are never sent. -/
def isHidden (k : Key) : Bool :=
  match k with
  | .text s => "_sa".toList.isPrefixOf s.toList
  | _ => false

/-- Octets are sent as the text that they encode. -/
def textOf? (octets : List UInt8) : Option String :=
  (Text.Utf8.decode octets).toOption.map String.ofList

/-- The key that a field is sent with; a key that has parts, or of which nothing is known, has
none. -/
def sendableKey? : Key → Option Key
  | .atom (.octets bytes) => (textOf? bytes).map .text
  | .atom .missing => none
  | .atom .foreign => none
  | .tuple _ => none
  | k => some k

/-- An atom as it is sent. What is not there and what is foreign have no fields to be sent. -/
def sendableAtom? : Atom → Option Value
  | .octets bytes => (textOf? bytes).map .text
  | .missing => some (.object [])
  | .foreign => some (.object [])
  | a => some (.atom a)

mutual

/-- The value as it is sent. -/
def sendable? : Value → Option Value
  | .atom a => sendableAtom? a
  | .list items => (allSendable? items).map .list
  | .tuple items => (allSendable? items).map .list
  | .object fields => (sendableFields? fields).map fun pairs => .object (Fields.ofPairs pairs)

def allSendable? : List Value → Option (List Value)
  | [] => some []
  | v :: rest => do
    let first ← sendable? v
    let others ← allSendable? rest
    return first :: others

def sendableFields? : List (Key × Value) → Option (List (Key × Value))
  | [] => some []
  | (k, v) :: rest =>
    if isHidden k then sendableFields? rest
    else do
      let key ← sendableKey? k
      let value ← sendable? v
      let others ← sendableFields? rest
      return (key, value) :: others

end

/-- The answer to a request that could not be answered. -/
def internal : Nat × Value :=
  (500, .ofFields [
    ("ok", .bool false),
    ("errors", Issue.listValue
      [⟨.internalError, "Unexpected server error", none, .null⟩]),
    ("warnings", .list [])])

/-- The status and the body that are sent; none if the body can not be written. -/
def sent? : Answer → Option (Nat × Value)
  | .broken => none
  | .body status fields => do
    let v ← sendable? (.ofFields fields)
    if (Json.compactText v).isOk then some (status, v) else none

end Answer

end PageBuilder
