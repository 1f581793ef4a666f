import PageBuilder.Json.Writer
import PageBuilder.Path

/-!
Templates: texts with references in double braces. A text that is one reference and blanks stands
for the value it refers to; in any other text each reference is replaced by the text of its value.
-/

namespace PageBuilder.Template

/-! ## References -/

def isPlain (c : Char) : Bool := c != '{' && c != '}'

/-- The inside of a reference at the start of a text, and what follows it. -/
def reference? : List Char → Option (List Char × List Char)
  | '{' :: '{' :: rest =>
    match rest.takeWhile isPlain, rest.dropWhile isPlain with
    | c :: inner, '}' :: '}' :: after => some (c :: inner, after)
    | _, _ => none
  | _ => none

/-- Nothing of a text is lost when a reference is taken off its start. -/
theorem eq_of_reference? {s inner after : List Char}
    (h : reference? s = some (inner, after)) :
    s = '{' :: '{' :: (inner ++ '}' :: '}' :: after) := by
  unfold reference? at h
  split at h
  · rename_i rest
    split at h
    · rename_i htake hdrop
      cases h
      have hwhole := List.takeWhile_append_dropWhile (p := isPlain) (l := rest)
      rw [htake, hdrop] at hwhole
      rw [← hwhole]
    · cases h
  · cases h

theorem length_of_reference? {s inner after : List Char}
    (h : reference? s = some (inner, after)) : after.length < s.length := by
  rw [eq_of_reference? h]
  simp only [List.length_cons, List.length_append]
  omega

inductive Piece where
  | literal (c : Char)
  | reference (inner : List Char)
  deriving DecidableEq

/-- The references of a text and the characters between them. -/
def pieces : List Char → List Piece
  | [] => []
  | c :: rest =>
    match _h : reference? (c :: rest) with
    | some (inner, after) => .reference inner :: pieces after
    | none => .literal c :: pieces rest
termination_by s => s.length
decreasing_by
  · exact length_of_reference? _h
  · simp

def Piece.path? : Piece → Option String
  | literal _ => none
  | reference inner => some (String.ofList (Text.trim inner))

/-- The paths that a template refers to, in order. -/
def references : Value → List String
  | .text s => (pieces s.toList).filterMap Piece.path?
  | _ => []

/-- The path of a text that is one reference with blanks around it. -/
def soleReference? (s : List Char) : Option String :=
  match reference? (s.dropWhile Text.isBlank) with
  | some (inner, after) =>
    if after.all Text.isBlank then some (String.ofList (Text.trim inner)) else none
  | none => none

/-! ## Evaluation -/

/-- Numbers without fraction below this size are inserted without point and exponent. -/
def plainBelow : Nat := Nat.pow 10 21

def numberText (x : Double) : String :=
  match x.integer? with
  | some n =>
    if n.natAbs < plainBelow then String.ofList (Json.intText n)
    else String.ofList (x.text Json.nonFiniteWords)
  | none => String.ofList (x.text Json.nonFiniteWords)

def atomText : Atom → String
  | .missing => ""
  | .null => ""
  | .text s => s
  | .bool b => if b then "true" else "false"
  | .int n => String.ofList (Json.intText n)
  | .float x => numberText x
  | a => a.shown

/-- What a value is inserted as. -/
def insertedText : Value → String
  | .atom a => atomText a
  | v =>
    match Json.compactText v with
    | .ok s => s
    | .error _ => v.shown

def pieceText (context : Value) : Piece → Except Fault String
  | .literal c => .ok (String.singleton c)
  | .reference inner =>
    (Path.lookup context (String.ofList (Text.trim inner))).map insertedText

def interpolate (context : Value) : List Piece → Except Fault String
  | [] => .ok ""
  | piece :: rest => do
    let text ← pieceText context piece
    let others ← interpolate context rest
    return text ++ others

/-- The value of a template; what is no text stands for itself. -/
def evaluate (context : Value) : Value → Except Fault Value
  | .text s =>
    if !context.isObject then .error .contextKind
    else match soleReference? s.toList with
      | some path => Path.lookup context path
      | none => (interpolate context (pieces s.toList)).map .text
  | v => .ok v

def evaluateFields (context : Value) : Fields → Except Fault Fields
  | [] => .ok []
  | (k, v) :: rest => do
    let value ← evaluate context v
    let others ← evaluateFields context rest
    return (k, value) :: others

/-- The properties of a component with their templates evaluated. -/
def evaluateProps (context : Value) : Value → Except Fault Fields
  | .object fields => evaluateFields context fields
  | _ => .ok []

end PageBuilder.Template
