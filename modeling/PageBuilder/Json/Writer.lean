import PageBuilder.Double.Text
import PageBuilder.Text.Quoted
import PageBuilder.Value.Basic

/-!
JSON text of values. Tuples are written as arrays; names that are numbers, truth values or null
are written as texts. Characters beyond ASCII stand for themselves.

No limit is put to the digits of an integer here, nor to how deep a value nests: what has a text
within limits is said by `Value.overrun?`, and `canonicalTextWithin` writes no other.
-/

namespace PageBuilder.Json

inductive WriteFault where
  | kind (kind : String)
  | keyKind (kind : String)
  | notFinite
  deriving DecidableEq

def WriteFault.message : WriteFault → String
  | kind k => "Object of type " ++ k ++ " is not JSON serializable"
  | keyKind k => "keys must be str, int, float, bool or None, not " ++ k
  | notFinite => "Out of range float values are not JSON compliant"

/-- How a text is laid out: the marks between items and after names, the width of an indentation
step where lines are broken, and whether numbers that are not finite may be written. -/
structure Style where
  comma : List Char
  colon : List Char
  indent : Option Nat
  allowsNonFinite : Bool

def Style.compact : Style := ⟨[','], [':'], none, false⟩
def Style.spaced : Style := ⟨[',', ' '], [':', ' '], none, true⟩
def Style.indented : Style := ⟨[','], [':', ' '], some 2, true⟩

/-! ## Atoms -/

def escapedChar (c : Char) : List Char :=
  match c with
  | '"' => ['\\', '"']
  | '\\' => ['\\', '\\']
  | '\n' => ['\\', 'n']
  | '\r' => ['\\', 'r']
  | '\t' => ['\\', 't']
  | '\x08' => ['\\', 'b']
  | '\x0c' => ['\\', 'f']
  | c => if c.toNat < 0x20 then '\\' :: 'u' :: Text.hex 4 c.toNat else [c]

def quoted (s : List Char) : List Char := '"' :: (s.flatMap escapedChar ++ ['"'])

/-- All digits of an integer, however many there are. -/
def intText : Int → List Char
  | .ofNat n => Nat.toDigits 10 n
  | .negSucc n => '-' :: Nat.toDigits 10 (n + 1)

def nonFiniteWords : Double.Words := ⟨"NaN".toList, "Infinity".toList⟩

def doubleText (style : Style) (x : Double) : Except WriteFault (List Char) :=
  if x.isFinite || style.allowsNonFinite then .ok (x.text nonFiniteWords) else .error .notFinite

/-- What an atom is written as, text apart. -/
def plainText? (style : Style) : Atom → Option (Except WriteFault (List Char))
  | .null => some (.ok "null".toList)
  | .bool true => some (.ok "true".toList)
  | .bool false => some (.ok "false".toList)
  | .int n => some (.ok (intText n))
  | .float x => some (doubleText style x)
  | _ => none

def atomText (style : Style) : Atom → Except WriteFault (List Char)
  | .text s => .ok (quoted s.toList)
  | a => (plainText? style a).getD (.error (.kind a.kindName))

def nameText (style : Style) : Key → Except WriteFault (List Char)
  | .text s => .ok (quoted s.toList)
  | .atom a => ((plainText? style a).getD (.error (.keyKind a.kindName))).map quoted
  | k => .error (.keyKind k.kindName)

/-! ## Values -/

def Style.newline (style : Style) (depth : Nat) : List Char :=
  match style.indent with
  | none => []
  | some width => '\n' :: List.replicate (width * depth) ' '

/-- Parts one step deeper than `depth` between brackets. -/
def enclosed (style : Style) (depth : Nat) (first last : Char) (parts : List (List Char)) :
    List Char :=
  if parts.isEmpty then [first, last]
  else
    let inner := style.newline (depth + 1)
    first :: (inner ++ (style.comma ++ inner).intercalate parts ++ style.newline depth ++ [last])

mutual

def write (style : Style) (depth : Nat) : Value → Except WriteFault (List Char)
  | .atom a => atomText style a
  | .list items => (writeItems style (depth + 1) items).map (enclosed style depth '[' ']')
  | .tuple items => (writeItems style (depth + 1) items).map (enclosed style depth '[' ']')
  | .object fields => (writeFields style (depth + 1) fields).map (enclosed style depth '{' '}')
termination_by structural v => v

def writeItems (style : Style) (depth : Nat) : List Value → Except WriteFault (List (List Char))
  | [] => .ok []
  | v :: rest => do
    let part ← write style depth v
    let parts ← writeItems style depth rest
    return part :: parts
termination_by structural vs => vs

def writeFields (style : Style) (depth : Nat) :
    List (Key × Value) → Except WriteFault (List (List Char))
  | [] => .ok []
  | (k, v) :: rest => do
    let name ← nameText style k
    let part ← write style depth v
    let parts ← writeFields style depth rest
    return (name ++ style.colon ++ part) :: parts
termination_by structural fields => fields

end

def text (style : Style) (v : Value) : Except WriteFault String :=
  (write style 0 v).map String.ofList

/-- The text without blanks, of values whose numbers are all finite. -/
def compactText (v : Value) : Except WriteFault String := text .compact v

end PageBuilder.Json
