import PageBuilder.Action.Parse

/-!
Plans: what becomes of a whole list of actions, with every refused entry and every repeated
identifier reported.
-/

namespace PageBuilder

structure Plan where
  errors : List Issue := []
  warnings : List Issue := []
  actions : List Action := []

namespace Plan

def ok (p : Plan) : Bool := p.errors.isEmpty

def append (p q : Plan) : Plan :=
  ⟨p.errors ++ q.errors, p.warnings ++ q.warnings, p.actions ++ q.actions⟩

instance : Append Plan := ⟨append⟩

/-- The path of an entry of the list. -/
def entryPath (index : Nat) : String := "$[" ++ toString index ++ "]"

def repeated (index : Nat) (id : String) : Issue :=
  ⟨.actionIdDuplicate, "Duplicate action id in list", some (entryPath index ++ ".id"),
    .ofFields [("id", .text id)]⟩

/-- An action that earlier entries with these identifiers precede. -/
def ofAction (index : Nat) (seen : List String) (action : Action) : Plan :=
  let again := action.id != "" && seen.contains action.id
  { warnings := if again then [repeated index action.id] else [], actions := [action] }

def ofEntries (index : Nat) (seen : List String) : List Value → Plan
  | [] => {}
  | raw :: rest =>
    match Action.parse (entryPath index) raw with
    | .error r => ({ errors := [r.toIssue .null] } : Plan) ++ ofEntries (index + 1) seen rest
    | .ok action =>
      let seen' := if action.id != "" then action.id :: seen else seen
      ofAction index seen action ++ ofEntries (index + 1) seen' rest

def notList : Issue := ⟨.actionsInvalid, "actions must be list", some "$", .null⟩

/-- The plan of what should be a list of actions; null stands for the empty list. -/
def ofValue : Value → Plan
  | .null => {}
  | .list entries => ofEntries 0 [] entries
  | _ => { errors := [notList] }

end Plan

end PageBuilder
