import PageBuilder.Tree.Fresh
import PageBuilder.Tree.Walk
import PageBuilder.Value.Integer

/-!
Edits of a page tree. An edit gives the whole new tree, or nothing where it is refused.
-/

namespace PageBuilder.Tree

/-! ## Changes in place -/

def editChildren (f : List Value → List Value) (v : Value) : Value :=
  match v with
  | .object fields => .object (Fields.set fields "children" (.list (f v.children)))
  | v => v

/-- Changes the node at an address. -/
def editAt : List Nat → (Value → Value) → Value → Value
  | [], f, v => f v
  | i :: rest, f, v => editChildren (fun children => children.modify i (editAt rest f)) v

/-- The address of the parent. -/
def Visit.above (v : Visit) : List Nat := v.address.dropLast

/-- The tree without the visited node and all below it. -/
def detach (root : Value) (v : Visit) : Value :=
  editAt v.above (editChildren fun children => children.eraseIdx v.index) root

/-- The node with an identifier, unless it is the root or there is none. -/
def locateInner (root id : Value) : Except Fault (Option Visit) := do
  if (← rootId root).same id then return none
  let found ← locate root id
  return found.filter fun v => v.parent.isSome

/-! ## Insertion -/

/-- Appends what is settled to the children of a container. What is in use is known from the whole
tree. -/
def insertSettled (settle : Allotment → Except Fresh.Unsettled Value × Allotment) (drawn : Nat)
    (root parentId : Value) : Except Fault (Option (Value × String)) × Nat :=
  match walk root with
  | .error f => (.error f, drawn)
  | .ok visits =>
    match visits.find? fun v => v.id.same parentId with
    | none => (.ok none, drawn)
    | some parent =>
      let ids := visits.map Visit.id
      if !parent.node.isContainer then (.ok none, drawn)
      else if !ids.all Value.isHashable then (.error .unhashable, drawn)
      else
        match settle ⟨ids.filterMap Value.text?, drawn⟩ with
        | (.error .unfit, a) => (.ok none, a.drawn)
        | (.error .drawsExhausted, a) => (.error .drawsExhausted, a.drawn)
        | (.ok item, a) =>
          let edited := editAt parent.address (editChildren fun children => children ++ [item]) root
          (.ok (some (edited, ((item.field "id").text?).getD "")), a.drawn)

/-- Appends a node to the children of a container. -/
def insert (source : IdSource) (drawn : Nat) (root parentId node : Value) :
    Except Fault (Option (Value × String)) × Nat :=
  insertSettled (Fresh.settle source node) drawn root parentId

/-! ## Fields -/

/-- Whether the kind of a node may be changed to what should be a kind. -/
def allowsKind (node kind : Value) : Bool :=
  match ComponentKind.insertable? kind with
  | none => false
  | some k => !(node.field "type").isTextOf ComponentKind.page.name
      && k.isContainer == node.isContainer

/-- Whether one field may be put into a node. -/
def allowsField (node : Value) : Key × Value → Bool
  | (.text "children", _) => false
  | (.text "id", v) => v.same (node.field "id")
  | (.text "type", v) => v.same (node.field "type") || allowsKind node v
  | _ => true

/-- Whether fields may be put into a node. -/
def allowsFields (node : Value) (fields : Fields) : Bool := fields.all (allowsField node)

def putFields (fields : Fields) : Value → Value
  | .object old => .object (Fields.merge old fields)
  | v => v

/-- Puts fields into a node. Identifier and children stay, and the kind changes only among
containers or among leaves. -/
def update (root id fields : Value) : Except Fault (Option Value) :=
  match fields with
  | .object fields => do
    match ← locate root id with
    | none => return none
    | some v =>
      if allowsFields v.node fields then return some (editAt v.address (putFields fields) root)
      else return none
  | _ => .ok none

/-! ## Removal -/

/-- Removes a node with all below it; the identifiers of what was removed go with the new tree. -/
def remove (root id : Value) : Except Fault (Option (Value × List Value)) := do
  match ← locateInner root id with
  | none => return none
  | some v =>
    let removed ← ids v.node
    if removed.all Value.isHashable then return some (detach root v, removed)
    else throw .unhashable

/-! ## Order -/

inductive Direction where
  | up
  | down
  deriving DecidableEq

def Direction.ofValue? : Value → Option Direction
  | .text "up" => some .up
  | .text "down" => some .down
  | _ => none

/-- The place next to one of `count` places, where there is one. -/
def Direction.from? (d : Direction) (index count : Nat) : Option Nat :=
  match d with
  | .up => if index = 0 then none else some (index - 1)
  | .down => if index + 1 < count then some (index + 1) else none

def swap (i j : Nat) (items : List Value) : List Value :=
  match items[i]?, items[j]? with
  | some a, some b => (items.set i b).set j a
  | _, _ => items

/-- Swaps a node with the neighbour on one side. -/
def reorder (root id direction : Value) : Except Fault (Option Value) :=
  match Direction.ofValue? direction with
  | none => .error (.direction direction.display)
  | some d => do
    match ← locateInner root id with
    | none => return none
    | some v =>
      let siblings := (v.parent.map Value.children).getD []
      return (d.from? v.index siblings.length).map fun place =>
        editAt v.above (editChildren (swap v.index place)) root

/-! ## Moves -/

def insertAt (index : Int) (item : Value) (items : List Value) : List Value :=
  items.insertIdx (min index.toNat items.length) item

/-- Moves a node to a place among the children of a container. The target is looked up in the tree
without the node, so that nothing can be moved into itself. -/
def move (root id targetId index : Value) : Except Fault (Option Value) := do
  if (← rootId root).same id || id.same targetId then return none
  match ← locateInner root id with
  | none => return none
  | some v =>
    let rest := detach root v
    match ← locate rest targetId with
    | none => return none
    | some target =>
      if target.node.isContainer then
        let place ← index.integer
        return some (editAt target.address (editChildren (insertAt place v.node)) rest)
      else return none

end PageBuilder.Tree
