/-!
Why a call has no answer: its arguments, or the data it meets, are of the wrong shape.
-/

namespace PageBuilder

inductive Fault where
  /-- A field is asked of something that is no object. -/
  | notObject
  /-- A list or an object is asked for as a key or as a member of a set. -/
  | unhashable
  /-- Something that is no object is spread into an object. -/
  | notMapping
  /-- Something that has no items is gone through. -/
  | notIterable
  /-- An item is no pair, for it has no parts. -/
  | notPair
  /-- An item is no pair, for it has more or fewer than two parts. -/
  | pairLength
  | pathKind (shown : String)
  | contextKind
  | contextKey
  | componentKind (shown : String)
  | direction (shown : String)
  | actionKind (shown : String)
  /-- A text is no integer. -/
  | integerText (shown : String)
  /-- A text is no number. -/
  | numberText (shown : String)
  /-- A value can not be read as an integer. -/
  | integerKind
  | notNumberIndex
  | infiniteIndex
  /-- The draws allowed for one identifier were all taken. -/
  | drawsExhausted
  deriving DecidableEq

/-- What is said of a fault; nothing where only its kind is told. -/
def Fault.message : Fault → String
  | pathKind shown => "path must be string (path=" ++ shown ++ ")"
  | contextKind => "EXPR_CTX_INVALID: context must be object (path=$)"
  | contextKey => "context key must be string"
  | componentKind shown => "Unsupported component kind: " ++ shown
  | direction shown => "Unsupported direction: " ++ shown
  | actionKind shown => "Unknown action type: " ++ shown
  | integerText shown => "invalid literal for int() with base 10: " ++ shown
  | numberText shown => "could not convert string to float: " ++ shown
  | _ => ""

end PageBuilder
