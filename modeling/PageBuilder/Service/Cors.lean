import PageBuilder.Settings

/-!
Which origins may use the service from a browser: those of the settings, and those of this machine,
whatever number they listen on.
-/

namespace PageBuilder.Cors

def localHosts : List String := ["http://localhost:", "http://127.0.0.1:"]

/-- What follows the first text in the second one, if that begins with it. -/
def after? (start : List Char) (s : List Char) : Option (List Char) :=
  if start.isPrefixOf s then some (s.drop start.length) else none

/-- Digits of any script, at least one, and perhaps a line feed after them. -/
def isPort (s : List Char) : Bool :=
  let digits := if s.getLast? = some '\n' then s.dropLast else s
  !digits.isEmpty && digits.all fun c => (Text.decimalDigit? c).isSome

def isLocal (origin : List Char) : Bool :=
  localHosts.any fun host => (after? host.toList origin).any isPort

/-- Whether an origin may use the service; slashes at its end make no difference. -/
def allows (origins : List String) (origin : String) : Bool :=
  let plain := Settings.withoutSlashes origin.toList
  !plain.isEmpty && (origins.contains (String.ofList plain) || isLocal plain)

/-- The headers that grant the use to an origin. -/
def grant (origin : String) : List (String × String) := [
  ("access-control-allow-origin", origin),
  ("access-control-allow-headers", "*"),
  ("access-control-allow-methods", "*"),
  ("vary", "Origin")]

/-- The headers of an answer to a request from an origin. -/
def headers (origins : List String) : Option String → List (String × String)
  | none => []
  | some origin => if allows origins origin then grant origin else []

end PageBuilder.Cors
