import PageBuilder.Value.Equality
import PageBuilder.Value.Integer

/-!
Paths into values. A path is a text of steps with dots between them; a step in brackets stands for
a dotted one and may be quoted. A step names a field of an object or counts the items of a list.
-/

namespace PageBuilder.Path

/-! ## Steps -/

def isQuote (c : Char) : Bool := c = '\'' || c = '"'

/-- The step inside of brackets. -/
def bare (inner : List Char) : List Char := Text.trimBoth isQuote (Text.trim inner)

def reopened : Option (List Char) → List Char
  | some inner => '[' :: inner
  | none => []

/-- The text with dotted steps for those in brackets, the text since a bracket that is still open
kept apart. -/
def unbracket : Option (List Char) → List Char → List Char
  | pending, [] => reopened pending
  | pending, '[' :: rest => reopened pending ++ unbracket (some []) rest
  | some inner, ']' :: rest => '.' :: (bare inner ++ unbracket none rest)
  | some inner, c :: rest => unbracket (some (inner ++ [c])) rest
  | none, c :: rest => c :: unbracket none rest

/-- The steps of a path; empty ones are left out. -/
def steps (path : String) : List String :=
  let parts := (Text.parts '.' (unbracket none path.toList)).map Text.trim
  (parts.filter (!·.isEmpty)).map String.ofList

/-- The steps of a value that should be a path. -/
def stepsOf : Value → Except Fault (List String)
  | .text path => .ok (steps path)
  | v => .error (.pathKind (String.ofList (Text.quoted v.shown.toList)))

/-! ## Lookup -/

def item (items : List Value) (step : String) : Except Fault Value :=
  if step.toList.all Text.isDigit then
    (numeralOfText step).map fun n => items.getD n.toNat .missing
  else .ok .missing

/-- One step down; the missing marker where it leads nowhere. -/
def down (v : Value) (step : String) : Except Fault Value :=
  match v with
  | .object fields => .ok ((Fields.get? fields step).getD .missing)
  | .list items => item items step
  | .tuple items => item items step
  | .atom _ => .ok .missing

def follow : Value → List String → Except Fault Value
  | v, [] => .ok v
  | v, step :: rest => do
    let next ← down v step
    if next.isMissing then return .missing else follow next rest

/-- The field that a whole key names. -/
def literal? (v : Value) (k : Key) : Option Value :=
  match v with
  | .object fields => Fields.find? fields k
  | _ => none

/-- What the steps lead to; a path without steps leads nowhere. -/
def descend (v : Value) : List String → Except Fault Value
  | [] => .ok .missing
  | path => follow v path

/-- What a path leads to. A path that is the name of a field of the whole value leads to that
field, before it is taken for steps. -/
def lookup (v : Value) (path : String) : Except Fault Value :=
  match literal? v (.text path) with
  | some found => .ok found
  | none => descend v (steps path)

/-- What a value that should be a path leads to. -/
def lookupValue (v path : Value) : Except Fault Value :=
  match path.toKey? with
  | none => if v.isObject then .error .unhashable else stepsOf path >>= descend v
  | some k =>
    match literal? v k with
    | some found => .ok found
    | none => stepsOf path >>= descend v

end PageBuilder.Path
