import PageBuilder.Tree.Fresh

/-!
The shape in which a checked tree is stored: every node has properties, and every container has a
child list.
-/

namespace PageBuilder.Document

/-- The fields of a node with what is missing filled in, children apart. -/
def filled (fields : Fields) : Fields :=
  let fields := Fresh.withProps fields
  if (Value.object fields).isContainer && (Fields.field fields "children").isNull then
    Fields.set fields "children" (.list [])
  else fields

mutual

def shaped (v : Value) : Value :=
  match v.fields? with
  | none => v
  | some fields =>
    let children := allShaped v.children
    if v.isContainer && v.childList?.isSome then
      .object (Fields.set (filled fields) "children" (.list children))
    else .object (filled fields)
termination_by sizeOf v
decreasing_by exact Value.sizeOf_children_lt v

def allShaped (vs : List Value) : List Value :=
  match vs with
  | [] => []
  | v :: rest => shaped v :: allShaped rest
termination_by sizeOf vs

end

end PageBuilder.Document
