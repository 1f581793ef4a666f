import PageBuilder.Store

/-!
Guests: what is to be inserted, where a node may be listed more than once. A node that is listed
twice is one object, and what is done to it in its second turn is done to what was stored of it in
its first. So nodes are objects in a memory, in which they are settled in place, and what is stored
is read from there in the end.

Only nodes have names in the memory. An object that is also held elsewhere than in a child list, and
a child list that two objects have in common, are not told from their copies.
-/

namespace PageBuilder

/-- What a child list has in it: an object, by its name, or something that is none. -/
inductive Member where
  | object (name : Nat)
  | other (v : Value) (noObject : v.isObject = false)

/-- An object: its fields, and what its child list has in it, if the field for children is a
list. -/
structure Cell where
  fields : Fields
  members : List Member

namespace Cell

def hasList (c : Cell) : Bool := (Value.object c.fields).childList?.isSome

def listed (c : Cell) : List Member := if c.hasList then c.members else []

/-- What is inserted with the object: nothing with a leaf, whatever it has listed. -/
def taken (c : Cell) : List Member :=
  if (Value.object c.fields).isContainer then c.listed else []

/-- The object as a value, given the values of what is listed. -/
def value (c : Cell) (items : List Value) : Value :=
  .object (if c.hasList then Fields.set c.fields "children" (.list items) else c.fields)

end Cell

/-- The objects by their names. -/
abbrev Memory := Nat → Cell

namespace Memory

def put (m : Memory) (name : Nat) (c : Cell) : Memory := fun n => if n = name then c else m n

/-- The value of a member, if objects stand no deeper inside one another than there is room for. -/
def value? (m : Memory) : Nat → Member → Option Value
  | _, .other v _ => some v
  | 0, .object _ => none
  | room + 1, .object name => ((m name).listed.mapM (m.value? room)).map (m name).value

/-- The names of the nodes that are inserted with a member, in the order of their turns, each as
often as it is listed. -/
def names (m : Memory) : Nat → Member → List Nat
  | room + 1, .object name => name :: (m name).taken.flatMap (m.names room)
  | _, _ => []

end Memory

/-- What is to be inserted. No object stands inside itself. -/
structure Guest where
  memory : Memory
  top : Member
  room : Nat
  finite : (memory.value? room top).isSome

namespace Guest

/-- The value in which every node stands as often as it is listed. -/
def value (g : Guest) : Value := (g.memory.value? g.room g.top).get g.finite

/-- The names of the nodes that are inserted, each as often as it is listed. -/
def names (g : Guest) : List Nat := g.memory.names g.room g.top

/-- Whether no node that is inserted is listed twice. -/
def Once (g : Guest) : Prop := g.names.Nodup

instance (g : Guest) : Decidable g.Once := inferInstanceAs (Decidable g.names.Nodup)

end Guest

namespace Fresh

/-! ## Settling in place -/

/-- What is worked on: the memory, and the identifiers in use. -/
structure Desk where
  memory : Memory
  allotment : Allotment

def Desk.put (d : Desk) (name : Nat) (c : Cell) : Desk := { d with memory := d.memory.put name c }

/-- What is made of the children of a node: a leaf loses them, and a container without any gets an
empty list. -/
def childListed? (kind : ComponentKind) (c : Cell) : Option Cell :=
  if !kind.isContainer then some ⟨Fields.erase c.fields "children", []⟩
  else if (Fields.field c.fields "children").isNull then
    some ⟨Fields.set c.fields "children" (.list []), []⟩
  else if c.hasList then some c
  else none

/-- Some members, one after the other, until one of them fails. -/
def inTurn (f : Member → Desk → Except Unsettled Unit × Desk) :
    List Member → Desk → Except Unsettled Unit × Desk
  | [], d => (.ok (), d)
  | x :: rest, d =>
    match f x d with
    | (.error e, d) => (.error e, d)
    | (.ok (), d) => inTurn f rest d

/-- Settles a member in place, with all that is listed below it. -/
def settleIn (source : IdSource) : Nat → Member → Desk → Except Unsettled Unit × Desk
  | room + 1, .object name, d =>
    let c := d.memory name
    match ComponentKind.insertable? (Fields.field c.fields "type") with
    | none => (.error .unfit, d)
    | some kind =>
      match identify source kind c.fields d.allotment with
      | (.error e, a) => (.error e, { d with allotment := a })
      | (.ok fields, a) =>
        let named : Cell := { c with fields := withProps fields }
        let d := Desk.put { d with allotment := a } name named
        match childListed? kind named with
        | none => (.error .unfit, d)
        | some c => inTurn (settleIn source room) c.listed (d.put name c)
  | _, _, d => (.error .unfit, d)

end Fresh

/-- The value of a guest as it is inserted. -/
def Guest.settle (source : IdSource) (g : Guest) (a : Allotment) :
    Except Fresh.Unsettled Value × Allotment :=
  match Fresh.settleIn source g.room g.top ⟨g.memory, a⟩ with
  | (.error e, d) => (.error e, d.allotment)
  | (.ok (), d) => ((d.memory.value? g.room g.top).elim (.error .unfit) .ok, d.allotment)

/-- Inserts a guest. -/
def Store.insertGuest (s : Store) (source : IdSource) (drawn : Nat) (parentId : Value)
    (g : Guest) : Insertion :=
  s.inserted (Tree.insertSettled (g.settle source) drawn s.root parentId)

end PageBuilder
