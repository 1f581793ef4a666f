import PageBuilder.Json.Reader
import PageBuilder.Template
import PageBuilder.Value.JsonLike

/-!
The body of an outbound request: the configured body together with the data context. A text is
taken for JSON if it is JSON, and else for a template; what is no object is sent as one value.
-/

namespace PageBuilder.RequestBody

/-- The fields of an object; another value as the only field. -/
def wrapped : Value → Fields
  | .object fields => fields
  | v => [(.text "value", v)]

def ofText (context : Value) (s : String) : Except Fault Fields :=
  match Json.valueOfText .strict s with
  | .ok v => .ok (wrapped v)
  | .error _ => (Template.evaluate context (.text s)).map fun v => [(.text "value", v)]

/-- What the configured body says alone. -/
def configured (context : Value) : Value → Except Fault Fields
  | .null => .ok []
  | .text "" => .ok []
  | .text s => ofText context s
  | v => .ok (wrapped v)

/-- The whole body; `runtime` is the data context that goes with it. -/
def build (context runtime body : Value) : Except Fault Value := do
  let fields ← configured context body
  return (Value.object (Fields.set fields "context" runtime)).jsonable

end PageBuilder.RequestBody
