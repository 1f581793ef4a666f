import PageBuilder.Fault
import PageBuilder.Value.Display
import PageBuilder.Value.Equality

/-!
Kinds of components. Containers hold other components, leaves do not; a page is the root of a tree
and occurs nowhere else.
-/

namespace PageBuilder

inductive ComponentKind where
  | page
  | container
  | row
  | column
  | input
  | button
  | text
  | image
  | table
  | select
  deriving DecidableEq

namespace ComponentKind

def name : ComponentKind → String
  | page => "page"
  | container => "container"
  | row => "row"
  | column => "column"
  | input => "input"
  | button => "button"
  | text => "text"
  | image => "image"
  | table => "table"
  | select => "select"

def all : List ComponentKind :=
  [page, container, row, column, input, button, text, image, table, select]

def isContainer : ComponentKind → Bool
  | page => true
  | container => true
  | row => true
  | column => true
  | _ => false

def ofText? (s : String) : Option ComponentKind := all.find? fun kind => kind.name == s

def ofValue? : Value → Option ComponentKind
  | .text s => ofText? s
  | _ => none

/-- The kinds that can be put into a tree. -/
def insertable? (v : Value) : Option ComponentKind := (ofValue? v).filter (· != page)

end ComponentKind

namespace Value

/-- The kind that a node names as its type. -/
def kind? (v : Value) : Option ComponentKind := ComponentKind.ofValue? (v.field "type")

def isContainer (v : Value) : Bool := v.kind?.any ComponentKind.isContainer

end Value

end PageBuilder
