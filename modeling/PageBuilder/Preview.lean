import PageBuilder.Template
import PageBuilder.Value.Children
import PageBuilder.Value.JsonLike

/-!
The live preview of a page: the same tree with labels and properties evaluated.
-/

namespace PageBuilder.Preview

/-- The fields that the preview carries over as they are. -/
def isKept (k : Key) : Bool :=
  !(k.alike (.text "props") || k.alike (.text "label") || k.alike (.text "children"))

/-- A node without its children: kept fields, then the evaluated ones. -/
def shallow (context : Value) (fields : Fields) : Except Fault Fields := do
  let kept := fields.filter fun (k, _) => isKept k
  let props ← Template.evaluateProps context (Fields.field fields "props")
  let out := Fields.set kept "props" (Value.object props).jsonable
  match Fields.get? fields "label" with
  | none => return out
  | some label => return Fields.set out "label" (← Template.evaluate context label).jsonable

mutual

/-- The preview of a node; children that are no objects are left out. -/
def node (context : Value) (v : Value) : Except Fault Value :=
  if !context.isObject then .error .contextKind
  else match v.fields? with
    | none => .error .notObject
    | some fields => do
      let out ← shallow context fields
      let children ← nodes context v.children
      match v.childList? with
      | none => return .object out
      | some _ => return .object (Fields.set out "children" (.list children))
termination_by sizeOf v
decreasing_by exact Value.sizeOf_children_lt v

def nodes (context : Value) : List Value → Except Fault (List Value)
  | [] => .ok []
  | v :: rest =>
    if v.isObject then do
      let first ← node context v
      let others ← nodes context rest
      return first :: others
    else nodes context rest
termination_by vs => sizeOf vs
decreasing_by
  all_goals
    simp only [List.cons.sizeOf_spec]
    omega

end

end PageBuilder.Preview
