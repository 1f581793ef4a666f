import PageBuilder.Action.Plan
import PageBuilder.Limits

/-!
Plans within limits. The message of a refusal may show a value of the action; where that value has
no text, there is no plan at all.
-/

namespace PageBuilder

/-- The value that is shown in the message of a refusal, where a value is refused for one. -/
def Action.shown? (raw : Value) : Option Value :=
  match parse "$" raw with
  | .error ⟨.kind _, _⟩ => some (raw.field "type")
  | .error ⟨.method _, _⟩ => some ((raw.field "config").field "method")
  | _ => none

def Action.overrun? (limits : Limits) (raw : Value) : Option Overrun :=
  (shown? raw).bind (Value.overrun? limits.digits limits.showing)

namespace Plan

/-- What is met first in a list of actions that is in the way of a plan. -/
def overrun? (limits : Limits) : Value → Option Overrun
  | .list entries => entries.findSome? (Action.overrun? limits)
  | _ => none

def ofValueWithin (limits : Limits) (v : Value) : Except Overrun Plan :=
  match overrun? limits v with
  | some e => .error e
  | none => .ok (ofValue v)

end Plan

end PageBuilder
