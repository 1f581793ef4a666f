import PageBuilder.Fault
import PageBuilder.Text.Numeral
import PageBuilder.Text.Quoted
import PageBuilder.Value.Basic

/-!
Settings from the environment, and the file that adds to the environment.
-/

namespace PageBuilder

/-- Names with their values; no name occurs twice. -/
abbrev Environment := List (String × String)

namespace Environment

def get? (env : Environment) (name : String) : Option String := env.lookup name

/-- A variable that is there keeps its value. -/
def addNew (env : Environment) (name value : String) : Environment :=
  if (env.get? name).isSome then env else env ++ [(name, value)]

/-! ## Environment files -/

def isDoubleQuote (c : Char) : Bool := c = '"'
def isSingleQuote (c : Char) : Bool := c = '\''

/-- The assignment in a line; none in a blank line, a comment, or a line without a name. -/
def assignment? (line : List Char) : Option (String × String) :=
  match Text.trim line with
  | [] => none
  | '#' :: _ => none
  | s =>
    match Text.cut? '=' s with
    | none => none
    | some (name, value) =>
      let name := Text.trim name
      let value := Text.trimBoth isSingleQuote (Text.trimBoth isDoubleQuote (Text.trim value))
      if name.isEmpty then none else some (String.ofList name, String.ofList value)

def addLines (env : Environment) (lines : List (List Char)) : Environment :=
  lines.foldl (fun env line =>
    match assignment? line with
    | some (name, value) => env.addNew name value
    | none => env) env

/-- The environment with the assignments of a file, where there is one. -/
def addFile (env : Environment) : Option String → Environment
  | none => env
  | some text => env.addLines (Text.lines (Text.unifyNewlines text.toList))

end Environment

namespace Settings

/-! ## Single settings -/

def timeoutName : String := "PAGEKIT_WEBHOOK_TIMEOUT"
def versionName : String := "PAGEKIT_DOC_VERSION"
def originsName : String := "PAGEKIT_CORS_ORIGINS"

/-- The seconds that a webhook may take; none where the setting is not positive. -/
def timeoutOfText (text : String) : Except Fault (Option Double) :=
  match Text.Numeral.double? text.toList with
  | none => .error (.numberText (String.ofList (Text.quoted text.toList)))
  | some x => .ok (if x.isPositive then some x else none)

def readTimeout (env : Environment) : Except Fault (Option Double) :=
  let text := (env.get? timeoutName).getD "30"
  timeoutOfText (if text.isEmpty then "0" else text)

def usualVersion : String := "1.0"

/-- The version that documents are given. -/
def readVersion (env : Environment) : String :=
  let text := Text.trim ((env.get? versionName).getD usualVersion).toList
  if text.isEmpty then usualVersion else String.ofList text

def isSlash (c : Char) : Bool := c = '/'

def withoutSlashes (origin : List Char) : List Char := Text.trimEnd isSlash origin

/-- The origins of a list with commas; blank items are left out. -/
def originsOfText (text : String) : List String :=
  let items := (Text.parts ',' text.toList).map Text.trim
  ((items.filter (!·.isEmpty)).map fun item => String.ofList (withoutSlashes item)).eraseDups

/-- The origins that may use the service. -/
def readOrigins (env : Environment) : List String :=
  originsOfText ((env.get? originsName).getD "")

end Settings

/-- What a session needs to know of its environment. -/
structure Settings where
  timeout : Option Double
  version : String
  origins : List String

def Settings.ofEnvironment (env : Environment) : Except Fault Settings := do
  let timeout ← Settings.readTimeout env
  return ⟨timeout, Settings.readVersion env, Settings.readOrigins env⟩

/-- The timeout as it is passed on. -/
def Settings.timeoutValue (s : Settings) : Value := s.timeout.elim .null .float

end PageBuilder
