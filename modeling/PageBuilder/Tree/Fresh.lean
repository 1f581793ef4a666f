import PageBuilder.Tree.Kind
import PageBuilder.Value.Children

/-!
Identifiers for nodes that are inserted. A node keeps its identifier if that is a text that no
other node has, and gets a drawn one otherwise; at the same time it is brought into shape:
properties are an object, containers have a child list, and leaves have none.

What is settled here is a tree, in which each node has one place. A node that is listed at more
places than one is settled in place, as it is in `Guest`.
-/

namespace PageBuilder

/-- Where identifiers are drawn from. `draw n` is the hexadecimal text of the draw with number
`n`; as many draws as identifiers are in use are taken for one node, and `patience` more. -/
structure IdSource where
  draw : Nat → String
  patience : Nat

/-- The identifiers in use, and how many draws were made. -/
structure Allotment where
  used : List String
  drawn : Nat

namespace Fresh

/-- How much of a drawn text makes an identifier. -/
def nodeIdLength : Nat := 12

def idText (source : IdSource) (kind : ComponentKind) (number : Nat) : String :=
  kind.name ++ "_" ++ String.ofList ((source.draw number).toList.take nodeIdLength)

/-- The identifier of the next draw, and how many draws were made then. -/
def next (source : IdSource) (kind : ComponentKind) (drawn : Nat) : String × Nat :=
  (idText source kind (drawn + 1), drawn + 1)

/-- Draws until an identifier is not in use. -/
def draw (source : IdSource) (kind : ComponentKind) (used : List String) :
    Nat → Nat → Option String × Nat
  | 0, drawn => (none, drawn)
  | tries + 1, drawn =>
    let (id, drawn) := next source kind drawn
    if used.contains id then draw source kind used tries drawn else (some id, drawn)

def tries (source : IdSource) (used : List String) : Nat := source.patience + used.length + 1

/-- The identifier of a node, if it can be kept. -/
def kept? (used : List String) : Value → Option String
  | .text s => if s.isEmpty || used.contains s then none else some s
  | _ => none

/-- Why a value can not be inserted. -/
inductive Unsettled where
  | unfit
  | drawsExhausted
  deriving DecidableEq

/-- Gives a node its identifier. -/
def identify (source : IdSource) (kind : ComponentKind) (fields : Fields) (a : Allotment) :
    Except Unsettled Fields × Allotment :=
  match kept? a.used (Fields.field fields "id") with
  | some id => (.ok fields, { a with used := id :: a.used })
  | none =>
    match draw source kind a.used (tries source a.used) a.drawn with
    | (none, drawn) => (.error .drawsExhausted, { a with drawn })
    | (some id, drawn) => (.ok (Fields.set fields "id" (.text id)), ⟨id :: a.used, drawn⟩)

/-- The fields with an object for the properties. -/
def withProps (fields : Fields) : Fields :=
  if (Fields.field fields "props").isObject then fields
  else Fields.set fields "props" (.object [])

mutual

/-- The value as it is inserted; an inner node is settled after its parent and its elder
siblings. Where nodes that are alike stand at several places, each is settled on its own. -/
def settle (source : IdSource) (v : Value) (a : Allotment) :
    Except Unsettled Value × Allotment :=
  match v.fields? with
  | none => (.error .unfit, a)
  | some fields =>
    match ComponentKind.insertable? (Fields.field fields "type") with
    | none => (.error .unfit, a)
    | some kind =>
      match identify source kind fields a with
      | (.error e, a) => (.error e, a)
      | (.ok fields, a) =>
        let fields := withProps fields
        if !kind.isContainer then (.ok (.object (Fields.erase fields "children")), a)
        else if (Fields.field fields "children").isNull then
          (.ok (.object (Fields.set fields "children" (.list []))), a)
        else if v.childList?.isNone then (.error .unfit, a)
        else
          match settleAll source v.children a with
          | (.error e, a) => (.error e, a)
          | (.ok children, a) => (.ok (.object (Fields.set fields "children" (.list children))), a)
termination_by sizeOf v
decreasing_by exact Value.sizeOf_children_lt v

def settleAll (source : IdSource) (vs : List Value) (a : Allotment) :
    Except Unsettled (List Value) × Allotment :=
  match vs with
  | [] => (.ok [], a)
  | v :: rest =>
    match settle source v a with
    | (.error e, a) => (.error e, a)
    | (.ok first, a) =>
      match settleAll source rest a with
      | (.error e, a) => (.error e, a)
      | (.ok others, a) => (.ok (first :: others), a)
termination_by sizeOf vs

end

/-- A new component with the given identifier. -/
def component (kind : ComponentKind) (id : String) : Value :=
  let style : Fields :=
    if kind = .row then [(.text "display", .text "flex"), (.text "gap", .text "10px")] else []
  let fields : Fields := [
    (.text "id", .text id),
    (.text "type", .text kind.name),
    (.text "label", .text kind.name),
    (.text "props", .object []),
    (.text "style", .object style)]
  .object (if kind.isContainer then fields ++ [(.text "children", .list [])] else fields)

/-- A new component of what should be a kind, and how many draws were made then. -/
def componentOf (source : IdSource) (drawn : Nat) (v : Value) : Except Fault Value × Nat :=
  match ComponentKind.insertable? v with
  | none => (.error (.componentKind v.display), drawn)
  | some kind =>
    let (id, drawn) := next source kind drawn
    (.ok (component kind id), drawn)

end Fresh

end PageBuilder
