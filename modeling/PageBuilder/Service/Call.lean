import PageBuilder.Text.Blank

/-!
Calls of the service: what is asked for, by the method and the path of a request.
-/

namespace PageBuilder

inductive Call where
  | health
  | resetSession
  | tree
  | preview
  | node (id : String)
  | addChild (parentId : String)
  | patchNode (id : String)
  | deleteNode (id : String)
  | reorder (id : String)
  | move (id : String)
  | select
  | addAction (id event : String)
  | patchAction (id event actionId : String)
  | deleteAction (id event actionId : String)
  | runEvent (id event : String)
  | context
  | putContext (key : String)
  | document
  | loadDocument
  deriving DecidableEq

namespace Call

/-- The segments of a path, which all begin with a slash. -/
def segments (path : String) : List String :=
  ((Text.parts '/' path.toList).drop 1).map String.ofList

def ofSegments? (method : String) (segments : List String) : Option Call :=
  match method, segments with
  | "GET", ["health"] => some health
  | "POST", ["session", "reset"] => some resetSession
  | "GET", ["tree"] => some tree
  | "GET", ["preview"] => some preview
  | "GET", ["nodes", id] => some (node id)
  | "POST", ["nodes", id, "children"] => some (addChild id)
  | "PATCH", ["nodes", id] => some (patchNode id)
  | "DELETE", ["nodes", id] => some (deleteNode id)
  | "POST", ["nodes", id, "reorder"] => some (reorder id)
  | "POST", ["nodes", id, "move"] => some (move id)
  | "PUT", ["selection"] => some select
  | "POST", ["nodes", id, "events", event, "actions"] => some (addAction id event)
  | "PATCH", ["nodes", id, "events", event, "actions", action] =>
    some (patchAction id event action)
  | "DELETE", ["nodes", id, "events", event, "actions", action] =>
    some (deleteAction id event action)
  | "POST", ["nodes", id, "events", event, "run"] => some (runEvent id event)
  | "GET", ["context"] => some context
  | "PUT", ["context", key] => some (putContext key)
  | "GET", ["document"] => some document
  | "POST", ["document"] => some loadDocument
  | _, _ => none

/-- What a request asks for; no segment of its path may be empty. -/
def ofRequest? (method path : String) : Option Call :=
  let parts := segments path
  if parts.any String.isEmpty then none else ofSegments? method parts

end Call

end PageBuilder
