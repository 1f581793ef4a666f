import PageBuilder.Issue
import PageBuilder.Json.Canonical
import PageBuilder.Preview
import PageBuilder.Tree.Edit

/-!
The state of one editing session: the page tree, the data context and the selection. An edit that
is refused or that fails leaves the store as it is.
-/

namespace PageBuilder

structure Store where
  root : Value
  context : Value
  /-- The selected identifier; null when nothing is selected. -/
  selected : Value

namespace Store

/-- The tree of a session that is given none. -/
def initialRoot : Value :=
  .ofFields [
    ("id", .text "root"),
    ("type", .text ComponentKind.page.name),
    ("label", .text "Page Root"),
    ("props", .object []),
    ("children", .list []),
    ("style", .ofFields [("padding", .text "20px"), ("minHeight", .text "100%")])]

/-- An empty or missing context is an empty object. -/
def contextOf (v : Value) : Value := if v.truthy then v else .object []

/-- A new session. -/
def start (root context : Value) : Store :=
  ⟨if root.isNull then initialRoot else root, contextOf context, .null⟩

def withRoot (s : Store) (root : Value) : Store := { s with root }

def digest (s : Store) : Except Json.CanonicalFault String := Json.digest s.root

def preview (s : Store) : Except Fault Value := Preview.node s.context s.root

/-! ## Edits of the tree -/

/-- The store with the edited tree, and whether there was an edit. -/
def commit (s : Store) : Except Fault (Option Value) → Except Fault Bool × Store
  | .error f => (.error f, s)
  | .ok none => (.ok false, s)
  | .ok (some root) => (.ok true, s.withRoot root)

def update (s : Store) (id fields : Value) : Except Fault Bool × Store :=
  s.commit (Tree.update s.root id fields)

def reorder (s : Store) (id direction : Value) : Except Fault Bool × Store :=
  s.commit (Tree.reorder s.root id direction)

def move (s : Store) (id targetId index : Value) : Except Fault Bool × Store :=
  s.commit (Tree.move s.root id targetId index)

/-- The selection after the nodes with some identifiers were removed. -/
def deselect (s : Store) (removed : List Value) : Except Fault Bool × Store :=
  if !s.selected.isHashable then (.error .unhashable, s)
  else if removed.any (·.alike s.selected) then (.ok true, { s with selected := .null })
  else (.ok true, s)

/-- Removes a node with all below it; the selection goes with it. -/
def remove (s : Store) (id : Value) : Except Fault Bool × Store :=
  match Tree.remove s.root id with
  | .error f => (.error f, s)
  | .ok none => (.ok false, s)
  | .ok (some (root, removed)) => (s.withRoot root).deselect removed

/-! ## Insertion -/

/-- The outcome of an insertion: the identifier of what was inserted, the store, and how many
draws were made. -/
structure Insertion where
  result : Except Fault (Option String)
  store : Store
  drawn : Nat

/-- The store with the tree that an insertion gives. -/
def inserted (s : Store) : Except Fault (Option (Value × String)) × Nat → Insertion
  | (.error f, drawn) => ⟨.error f, s, drawn⟩
  | (.ok none, drawn) => ⟨.ok none, s, drawn⟩
  | (.ok (some (root, id)), drawn) => ⟨.ok (some id), s.withRoot root, drawn⟩

def insert (s : Store) (source : IdSource) (drawn : Nat) (parentId node : Value) : Insertion :=
  s.inserted (Tree.insert source drawn s.root parentId node)

/-- Selects what was inserted. -/
def Insertion.selecting (i : Insertion) : Insertion :=
  match i.result with
  | .ok (some id) => { i with store := { i.store with selected := .text id } }
  | _ => i

/-- Inserts a new component and selects it. -/
def add (s : Store) (source : IdSource) (drawn : Nat) (parentId kind : Value) : Insertion :=
  match Fresh.componentOf source drawn kind with
  | (.error _, drawn) => ⟨.ok none, s, drawn⟩
  | (.ok node, drawn) => (s.insert source drawn parentId node).selecting

/-! ## Whole tree, context and selection -/

def replaceTree (s : Store) (root : Value) : Store := { s with root, selected := .null }

def resetContext (s : Store) (context : Value) : Store := { s with context := contextOf context }

def select (s : Store) (id : Value) : Store := { s with selected := id }

/-- The two parts of what should be a pair. -/
def pairOf : Value → Except Fault (Value × Value)
  | .list [a, b] => .ok (a, b)
  | .tuple [a, b] => .ok (a, b)
  | .object [(a, _), (b, _)] => .ok (a.toValue, b.toValue)
  | .text s =>
    match s.toList with
    | [a, b] => .ok (.text (String.singleton a), .text (String.singleton b))
    | _ => .error .pairLength
  | .octets [a, b] => .ok (.ofNat a.toNat, .ofNat b.toNat)
  | .octets _ => .error .pairLength
  | .list _ => .error .pairLength
  | .tuple _ => .error .pairLength
  | .object _ => .error .pairLength
  | .atom _ => .error .notPair

def putPairs (fields : Fields) : List Value → Except Fault Fields
  | [] => .ok fields
  | item :: rest => do
    let (a, b) ← pairOf item
    match a.toKey? with
    | none => .error .unhashable
    | some k => putPairs (Fields.put fields k b) rest

/-- The items that a value goes through one by one. -/
def itemsOf : Value → Except Fault (List Value)
  | .list items => .ok items
  | .tuple items => .ok items
  | .object fields => .ok (fields.map fun (k, _) => k.toValue)
  | .text s => .ok (s.toList.map fun c => .text (String.singleton c))
  | .octets bytes => .ok (bytes.map fun b => .ofNat b.toNat)
  | .atom _ => .error .notIterable

/-- The object that a value is made to: itself, or the object of its pairs. -/
def fieldsOf : Value → Except Fault Fields
  | .object fields => .ok fields
  | v => itemsOf v >>= putPairs []

/-- Sets a key of the data context; the missing marker removes it. -/
def setContextValue (s : Store) (key v : Value) : Except Fault Unit × Store :=
  match key with
  | .text name =>
    match fieldsOf s.context with
    | .error f => (.error f, s)
    | .ok fields =>
      let changed := if v.isMissing then Fields.erase fields name else Fields.set fields name v
      (.ok (), { s with context := .object changed })
  | _ => (.error .contextKey, s)

end Store

end PageBuilder
