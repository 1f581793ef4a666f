import PageBuilder.Action.Plan
import PageBuilder.Tree.Kind
import PageBuilder.Value.Children
import PageBuilder.Value.JsonLike

/-!
The check of a page tree. Errors are what keeps a tree from being loaded; warnings tell of what is
filled in and of actions that will fail when they run.
-/

namespace PageBuilder

structure Findings where
  errors : List Issue := []
  warnings : List Issue := []

namespace Findings

def append (f g : Findings) : Findings := ⟨f.errors ++ g.errors, f.warnings ++ g.warnings⟩

instance : Append Findings := ⟨append⟩

def error (code : IssueCode) (message path : String) (detail : Value := .null) : Findings :=
  { errors := [⟨code, message, some path, detail⟩] }

def warning (code : IssueCode) (message path : String) : Findings :=
  { warnings := [⟨code, message, some path, .null⟩] }

end Findings

/-- The identifiers that were met, with the paths of their nodes. -/
abbrev Seen := List (String × String)

namespace Check

/-! ## Fields of one node -/

def id (path : String) (seen : Seen) (v : Value) : Findings × Seen :=
  match Action.name? v with
  | none => (.error .nodeIdInvalid "id must be non-empty string" (path ++ ".id"), seen)
  | some id =>
    match seen.lookup id with
    | some first =>
      (.error .nodeIdDuplicate ("Duplicate id: " ++ id) (path ++ ".id")
        (.ofFields [("first", .text first)]), seen)
    | none => ({}, (id, path) :: seen)

def place (path : String) (isRoot : Bool) (kind : ComponentKind) : Findings :=
  if isRoot && kind != .page then
    .error .rootNotPage "root must be of type page" (path ++ ".type")
  else if !isRoot && kind == .page then
    .error .pageNotRoot "page may only appear at the root" (path ++ ".type")
  else {}

def props (path : String) : Option Value → Findings
  | none => .warning .nodePropsMissing "props missing; defaulted to \x7b\x7d" (path ++ ".props")
  | some v =>
    if v.isObject then {}
    else .error .nodePropsInvalid "props must be object" (path ++ ".props")

def style (path : String) : Option Value → Findings
  | none => {}
  | some v =>
    if v.isObject then {}
    else .error .nodeStyleInvalid "style must be object" (path ++ ".style")

def label (path : String) (v : Value) : Findings :=
  if v.isNull || v.isText then {}
  else .error .nodeLabelInvalid "label must be string" (path ++ ".label")

/-- An issue of a list of actions, told by the path of the whole list. -/
def raised (path : String) (issue : Issue) : Issue :=
  let below := String.ofList ((issue.path.getD "$").toList.drop 1)
  ⟨issue.code, issue.message, some (path ++ below), .null⟩

def event (path : String) (actions : Value) : Findings :=
  let plan := Plan.ofValue actions
  { warnings := (plan.errors ++ plan.warnings).map (raised path) }

def eventFields (path : String) : Fields → Findings
  | [] => {}
  | (k, actions) :: rest => event (path ++ "." ++ k.display) actions ++ eventFields path rest

def events (path : String) : Value → Findings
  | .null => {}
  | .object fields => eventFields (path ++ ".events") fields
  | _ => .error .nodeEventsInvalid "events must be object" (path ++ ".events")

/-- What is found in a node of a known kind, children apart. -/
def contents (path : String) (isRoot : Bool) (kind : ComponentKind) (fields : Fields) :
    Findings :=
  place path isRoot kind
    ++ props path (Fields.get? fields "props")
    ++ style path (Fields.get? fields "style")
    ++ label path (Fields.field fields "label")
    ++ events path (Fields.field fields "events")

/-- What is found in the child list itself. -/
def childList (path : String) (kind : ComponentKind) (fields : Fields) : Findings :=
  let path := path ++ ".children"
  if kind.isContainer then
    match Fields.field fields "children" with
    | .null =>
      .warning .nodeChildrenMissing "container children missing; defaulted to []" path
    | .list _ => {}
    | _ => .error .nodeChildrenInvalid "children must be list" path
  else if Fields.has fields "children" then
    .error .leafHasChildren (kind.name ++ " cannot have children") path
  else {}

/-! ## Trees -/

def childPath (path : String) (index : Nat) : String :=
  path ++ ".children[" ++ toString index ++ "]"

mutual

/-- The check of a node and all below it. -/
def node (path : String) (isRoot : Bool) (seen : Seen) (v : Value) : Findings × Seen :=
  match v.fields? with
  | none => (.error .nodeInvalid "node must be object" path, seen)
  | some fields =>
    let (found, seen) := id path seen (Fields.field fields "id")
    let kindValue := Fields.field fields "type"
    match ComponentKind.ofValue? kindValue with
    | none =>
      let message := "Unknown component type: " ++ kindValue.display
      (found ++ .error .nodeTypeUnknown message (path ++ ".type"), seen)
    | some kind =>
      let found := found ++ contents path isRoot kind fields ++ childList path kind fields
      if kind.isContainer then
        let (below, seen) := nodes path 0 seen v.children
        (found ++ below, seen)
      else (found, seen)
termination_by sizeOf v
decreasing_by exact Value.sizeOf_children_lt v

/-- The check of the children from place `index` on. -/
def nodes (path : String) (index : Nat) (seen : Seen) (vs : List Value) : Findings × Seen :=
  match vs with
  | [] => ({}, seen)
  | v :: rest =>
    let (first, seen) := node (childPath path index) false seen v
    let (others, seen) := nodes path (index + 1) seen rest
    (first ++ others, seen)
termination_by sizeOf vs

end

/-- The values in a tree have to be those of JSON, or it could not be stored. -/
def values (root : Value) : Findings :=
  match root.offence? with
  | none => {}
  | some o => .error .nodeValueInvalid o.message "root"

def tree (root : Value) : Findings := values root ++ (node "root" true [] root).1

end Check

end PageBuilder
