import PageBuilder.Action.Within
import PageBuilder.Document.Normalize
import PageBuilder.Json.Within

/-!
Loading a document within limits. The text is read, the tree is checked and copied; where any of
this comes to a limit, there is no answer, and the store is as it was.
-/

namespace PageBuilder

namespace Check

/-- What is in the way of the warnings of the events of a node: the texts of the actions, and then
the name of the event, which is put into every path. -/
def eventsOverrun? (limits : Limits) : Value → Option Overrun
  | .object fields => fields.findSome? fun (k, actions) =>
    (Plan.overrun? limits actions).or (k.toValue.overrun? limits.digits limits.showing)
  | _ => none

/-- What is met first in a node and all below it that is in the way of its check. -/
def nodeOverrun? (limits : Limits) : Nat → Value → Option Overrun
  | 0, _ => some .depth
  | room + 1, v =>
    match v.fields? with
    | none => none
    | some fields =>
      let kindValue := Fields.field fields "type"
      match ComponentKind.ofValue? kindValue with
      | none => kindValue.overrun? limits.digits limits.showing
      | some kind =>
        let below := if kind.isContainer then v.children else []
        (eventsOverrun? limits (Fields.field fields "events")).or
          (below.findSome? (nodeOverrun? limits room))

def overrun? (limits : Limits) (root : Value) : Option Overrun :=
  match root.offenceWithin limits with
  | .error e => some e
  | .ok _ => nodeOverrun? limits limits.visiting root

def treeWithin (limits : Limits) (root : Value) : Except Overrun Findings :=
  match overrun? limits root with
  | some e => .error e
  | none => .ok (tree root)

end Check

namespace Document

/-- Why loading a document has no answer. -/
inductive LoadFault where
  | overrun (e : Overrun)
  | fault (f : Fault)
  deriving DecidableEq

/-- The document in a source: a text, octets, or a value that is a document already. -/
def ofSourceWithin (limits : Limits) : Value → Except (Json.Break Json.ReadFault) Value
  | .text s => Json.valueOfTextWithin limits .strict s
  | .octets bytes =>
    match Text.Utf8.decode bytes with
    | .error f => .error (.fault (.undecodable .utf8 f))
    | .ok s => Json.valueOfTextWithin limits .strict (String.ofList s)
  | v => .ok v

def unreadableWithin (b : Json.Break Json.ReadFault) : Issue :=
  ⟨.documentJsonInvalid, "Invalid JSON: " ++ b.message, some "$", .null⟩

/-- Loads a tree that is found to have no errors and that can be copied. -/
def loadWithin (limits : Limits) (s : Store) (version root : Value) :
    Except LoadFault (Import × Store) :=
  match Check.overrun? limits root with
  | some e => .error (.overrun e)
  | none =>
    match loadOrFault s version root with
    | .error f => .error (.fault f)
    | .ok (said, after) =>
      if said.ok && !root.fits limits.copying then .error (.overrun .depth) else .ok (said, after)

def answerWithin (limits : Limits) (s : Store) (source : Value) :
    Except LoadFault (Import × Store) :=
  match ofSourceWithin limits source with
  | .error .depth => .error (.overrun .depth)
  | .error b => .ok (.refused (unreadableWithin b), s)
  | .ok document =>
    match document.fields? with
    | none => .ok (.refused rootMissing, s)
    | some fields =>
      match Fields.get? fields "root" with
      | none => .ok (.refused rootMissing, s)
      | some root => loadWithin limits s (Fields.field fields "version") root

/-- Loads the document in a source; where there is no answer, the store is as it was. -/
def acceptWithin (limits : Limits) (s : Store) (source : Value) :
    Except LoadFault Import × Store :=
  match answerWithin limits s source with
  | .error f => (.error f, s)
  | .ok (said, after) => (.ok said, after)

end Document

end PageBuilder
