import PageBuilder.Document.Transfer

/-!
Loading with the faults that it could meet. A tree is brought into shape node by node, and nothing
in this asks whether a node is one: that is left to the check made before.
-/

namespace PageBuilder.Document

theorem sizeOf_lt_of_child {fields : Fields} {v : Value}
    (h : Fields.get? fields "children" = some v) : sizeOf v < sizeOf (Value.object fields) := by
  have := Fields.sizeOf_lt_of_find? h
  simp only [Value.object.sizeOf_spec]
  omega

mutual

/-- A node in shape, with all below it. -/
def normalize (v : Value) : Except Fault Value :=
  match v with
  | .object fields =>
    if !(Fields.field fields "type").isHashable then .error .unhashable
    else if !(Value.object fields).isContainer then .ok (.object (filled fields))
    else
      match _ : Fields.get? fields "children" with
      | none => .ok (.object (filled fields))
      | some .null => .ok (.object (filled fields))
      | some (.list items) => (normalizeAll items).map fun items =>
        .object (Fields.set (filled fields) "children" (.list items))
      | some (.tuple items) => (normalizeAll items).map fun items =>
        .object (Fields.set (filled fields) "children" (.tuple items))
      | some other =>
        -- The items of a text, of octets and of an object are no nodes.
        match Store.itemsOf other with
        | .error f => .error f
        | .ok [] => .ok (.object (filled fields))
        | .ok (_ :: _) => .error .notObject
  | _ => .error .notObject
termination_by sizeOf v
decreasing_by
  all_goals
    have := sizeOf_lt_of_child ‹_›
    simp only [Value.list.sizeOf_spec, Value.tuple.sizeOf_spec] at this
    omega

def normalizeAll (vs : List Value) : Except Fault (List Value) :=
  match vs with
  | [] => .ok []
  | v :: rest => do
    let first ← normalize v
    let others ← normalizeAll rest
    return first :: others
termination_by sizeOf vs

end

/-- Loads a tree that is found to have no errors, or meets a fault. -/
def loadOrFault (s : Store) (version root : Value) : Except Fault (Import × Store) :=
  let found := Check.tree root
  let warnings := checkVersion version ++ found.warnings
  if found.errors.isEmpty then
    (normalize root).map fun tree => (⟨true, [], warnings, version⟩, s.replaceTree tree)
  else .ok (⟨false, found.errors, warnings, version⟩, s)

end PageBuilder.Document
