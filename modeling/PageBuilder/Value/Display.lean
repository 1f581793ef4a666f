import PageBuilder.Double.Text
import PageBuilder.Text.Quoted
import PageBuilder.Value.Basic

/-!
Values as they are shown in messages. A text on its own is shown as it is, inside of other values
it is quoted.

No limit is put to the digits of an integer here, nor to how deep a value nests: what can be shown
within limits is said by `Value.overrun?`, and `Plan.ofValueWithin` and `Document.acceptWithin` fail
where a message is to show another value.
-/

namespace PageBuilder

/-- An integer is shown with all its digits, however many there are. -/
def Atom.shown : Atom → String
  | missing => "undefined"
  | null => "None"
  | bool b => if b then "True" else "False"
  | int n => toString n
  | float x => String.ofList (x.text Double.displayWords)
  | text s => String.ofList (Text.quoted s.toList)
  | octets bytes => String.ofList (Text.quotedOctets bytes)
  | foreign => "<opaque>"

/-- Items with commas between them. -/
def commaSeparated (items : List String) : String := ", ".intercalate items

/-- A sequence of one item keeps a comma, which tells it from the item in brackets. -/
def shownTuple : List String → String
  | [item] => "(" ++ item ++ ",)"
  | items => "(" ++ commaSeparated items ++ ")"

mutual

def Key.shown : Key → String
  | .atom a => a.shown
  | .tuple items => shownTuple (Key.allShown items)

def Key.allShown : List Key → List String
  | [] => []
  | k :: rest => k.shown :: Key.allShown rest

end

mutual

def Value.shown : Value → String
  | .atom a => a.shown
  | .list items => "[" ++ commaSeparated (Value.allShown items) ++ "]"
  | .tuple items => shownTuple (Value.allShown items)
  | .object fields => "\x7b" ++ commaSeparated (Value.fieldsShown fields) ++ "\x7d"

def Value.allShown : List Value → List String
  | [] => []
  | v :: rest => v.shown :: Value.allShown rest

def Value.fieldsShown : List (Key × Value) → List String
  | [] => []
  | (k, v) :: rest => (k.shown ++ ": " ++ v.shown) :: Value.fieldsShown rest

end

/-- The text of a key inside a message. -/
def Key.display : Key → String
  | .text s => s
  | k => k.shown

/-- The text of a value inside a message. -/
def Value.display : Value → String
  | .text s => s
  | v => v.shown

end PageBuilder
