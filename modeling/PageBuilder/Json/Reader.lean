import PageBuilder.Double.Decimal
import PageBuilder.Text.Detected
import PageBuilder.Value.Equality

/-!
Values from JSON text. Of two fields with one name the later value is kept in the place of the
first. What is malformed is reported with the place where reading could not go on.

No limit is put to the digits of an integer here, nor to how deep a text nests; within limits a text
is read by `valueOfTextWithin`.
-/

namespace PageBuilder.Json

inductive Complaint where
  | value
  | name
  | colon
  | comma
  | extra
  | unterminated
  | control
  | escape
  | codeEscape
  | byteOrderMark
  deriving DecidableEq

def Complaint.text : Complaint → String
  | value => "Expecting value"
  | name => "Expecting property name enclosed in double quotes"
  | colon => "Expecting ':' delimiter"
  | comma => "Expecting ',' delimiter"
  | extra => "Extra data"
  | unterminated => "Unterminated string starting at"
  | control => "Invalid control character at"
  | escape => "Invalid \\escape"
  | codeEscape => "Invalid \\uXXXX escape"
  | byteOrderMark => "Unexpected UTF-8 BOM (decode using utf-8-sig)"

/-- Why reading stopped, with the count of characters that were left. -/
inductive Stop where
  | malformed (complaint : Complaint) (left : Nat)
  | nonFinite (word : String)

inductive ReadFault where
  | malformed (complaint : Complaint) (line column offset : Nat)
  | nonFinite (word : String)
  | undecodable (encoding : Text.Encoding) (fault : Text.DecodeFault)
  deriving DecidableEq

def ReadFault.message : ReadFault → String
  | malformed complaint line column offset =>
    complaint.text ++ ": line " ++ toString line ++ " column " ++ toString column
      ++ " (char " ++ toString offset ++ ")"
  | nonFinite word => "Non-finite number not allowed: " ++ word
  | undecodable encoding fault => fault.message encoding

/-- A part that was read and the text after it. -/
abbrev Read (α : Type) := Except Stop (α × List Char)

def stop (complaint : Complaint) (left : List Char) : Except Stop α :=
  .error (.malformed complaint left.length)

/-! ## Blanks, texts and numbers -/

def isBlank (c : Char) : Bool := c = ' ' || c = '\t' || c = '\n' || c = '\r'

def skipBlanks (s : List Char) : List Char := s.dropWhile isBlank

def hexDigit? (c : Char) : Option Nat :=
  if '0' ≤ c && c ≤ '9' then some (c.toNat - 0x30)
  else if 'a' ≤ c && c ≤ 'f' then some (c.toNat - 0x61 + 10)
  else if 'A' ≤ c && c ≤ 'F' then some (c.toNat - 0x41 + 10)
  else none

def hex4? (a b c d : Char) : Option Nat := do
  return (((← hexDigit? a) * 16 + (← hexDigit? b)) * 16 + (← hexDigit? c)) * 16 + (← hexDigit? d)

/-- The character that an escape of two characters stands for, by its second one. -/
def unescaped? : Char → Option Char
  | '"' => some '"'
  | '\\' => some '\\'
  | '/' => some '/'
  | 'b' => some '\x08'
  | 'f' => some '\x0c'
  | 'n' => some '\n'
  | 'r' => some '\r'
  | 't' => some '\t'
  | _ => none

/-- Reads a text as code points up to its closing quote; `left` is the count from its opening
quote on. A code escape is followed by a character at least, for the text has to be closed. -/
def readText (left : Nat) : List Char → Read (List Nat)
  | [] => .error (.malformed .unterminated left)
  | '"' :: rest => .ok ([], rest)
  | ['\\'] => .error (.malformed .unterminated left)
  | '\\' :: 'u' :: a :: b :: c :: d :: e :: rest =>
    match hex4? a b c d with
    | some n => (readText left (e :: rest)).map fun (s, rest) => (n :: s, rest)
    | none => stop .codeEscape ('u' :: a :: b :: c :: d :: e :: rest)
  | '\\' :: 'u' :: rest => stop .codeEscape ('u' :: rest)
  | '\\' :: c :: rest =>
    match unescaped? c with
    | some d => (readText left rest).map fun (s, rest) => (d.toNat :: s, rest)
    | none => stop .escape ('\\' :: c :: rest)
  | c :: rest =>
    if c.toNat ≤ 0x1f then stop .control (c :: rest)
    else (readText left rest).map fun (s, rest) => (c.toNat :: s, rest)

def readQuoted (s : List Char) : Read String :=
  match s with
  | '"' :: rest =>
    (readText s.length rest).map fun (points, rest) =>
      (String.ofList (Text.joinPairs points), rest)
  | _ => stop .name s

def splitDigits (s : List Char) : List Char × List Char :=
  (s.takeWhile Char.isDigit, s.dropWhile Char.isDigit)

/-- The digits before the point: a zero alone, or digits that begin with another one. -/
def readWhole : List Char → Option (List Char × List Char)
  | '0' :: rest => some (['0'], rest)
  | c :: rest => if c.isDigit then some (splitDigits (c :: rest)) else none
  | [] => none

/-- The digits after the point; none and the whole text if there is no such digit. -/
def readFraction (s : List Char) : List Char × List Char :=
  match s with
  | '.' :: rest => if (splitDigits rest).1.isEmpty then ([], s) else splitDigits rest
  | _ => ([], s)

/-- The exponent; the whole text is left if it has no digits. -/
def readExponent (s : List Char) : Option Int × List Char :=
  match s with
  | c :: rest =>
    if c = 'e' || c = 'E' then
      let (negative, rest) : Bool × List Char := match rest with
        | '-' :: rest => (true, rest)
        | '+' :: rest => (false, rest)
        | _ => (false, rest)
      let (digits, rest) := splitDigits rest
      if digits.isEmpty then (none, s)
      else
        let n : Int := Nat.ofDigitChars 10 digits 0
        (some (if negative then -n else n), rest)
    else (none, s)
  | [] => (none, s)

/-- A number without fraction and exponent is an integer, however many digits it has. -/
def number (negative : Bool) (whole part : List Char) (exponent : Option Int) : Value :=
  let n := Nat.ofDigitChars 10 (whole ++ part) 0
  if part.isEmpty && exponent.isNone then .int (if negative then -n else n)
  else .float (.ofDecimal negative ⟨n, exponent.getD 0 - part.length⟩)

def readUnsigned (negative : Bool) (s : List Char) : Option (Value × List Char) :=
  match readWhole s with
  | none => none
  | some (whole, rest) =>
    let (part, rest) := readFraction rest
    let (exponent, rest) := readExponent rest
    some (number negative whole part exponent, rest)

def readNumber (s : List Char) : Read Value :=
  let found := match s with
    | '-' :: rest => readUnsigned true rest
    | _ => readUnsigned false s
  match found with
  | some r => .ok r
  | none => stop .value s

/-! ## Words -/

/-- The text after a word that it begins with. -/
def afterWord? (word : String) (s : List Char) : Option (List Char) :=
  if word.toList.isPrefixOf s then some (s.drop word.length) else none

/-- The words for numbers that are not finite, which JSON does not have. -/
def numberWords : List (String × Double) :=
  [("NaN", .nan), ("Infinity", .infinity false), ("-Infinity", .infinity true)]

def words : List (String × Value) :=
  [("null", .null), ("true", .bool true), ("false", .bool false)]

/-- Whether words for numbers that are not finite are read or refused. -/
structure Rules where
  readsNonFinite : Bool

def Rules.strict : Rules := ⟨false⟩
def Rules.lenient : Rules := ⟨true⟩

def readWord? (rules : Rules) (s : List Char) : Option (Read Value) :=
  let plain := words.findSome? fun (word, v) =>
    (afterWord? word s).map fun rest => (.ok (v, rest) : Read Value)
  let special := numberWords.findSome? fun (word, x) =>
    (afterWord? word s).map fun rest =>
      if rules.readsNonFinite then (.ok (.float x, rest) : Read Value)
      else .error (.nonFinite word)
  plain.or special

/-! ## Values -/

mutual

def readValue (rules : Rules) : Nat → List Char → Read Value
  | 0, s => stop .value s
  | fuel + 1, s =>
    match s with
    | '"' :: _ => (readQuoted s).map fun (t, rest) => (.text t, rest)
    | '[' :: rest =>
      match skipBlanks rest with
      | ']' :: rest => .ok (.list [], rest)
      | rest => (readItems rules fuel rest).map fun (items, rest) => (.list items, rest)
    | '{' :: rest =>
      match skipBlanks rest with
      | '}' :: rest => .ok (.object [], rest)
      | rest =>
        (readFields rules fuel rest).map fun (fields, rest) =>
          (.object (Fields.ofPairs fields), rest)
    | _ => (readWord? rules s).getD (readNumber s)

/-- Reads items up to the closing bracket; one item at least. -/
def readItems (rules : Rules) : Nat → List Char → Except Stop (List Value × List Char)
  | 0, s => stop .value s
  | fuel + 1, s => do
    let (v, rest) ← readValue rules fuel s
    match skipBlanks rest with
    | ']' :: rest => return ([v], rest)
    | ',' :: rest =>
      let (items, rest) ← readItems rules fuel (skipBlanks rest)
      return (v :: items, rest)
    | rest => stop .comma rest

/-- Reads fields up to the closing brace; one field at least. -/
def readFields (rules : Rules) :
    Nat → List Char → Except Stop (List (Key × Value) × List Char)
  | 0, s => stop .name s
  | fuel + 1, s => do
    let (name, rest) ← readQuoted s
    match skipBlanks rest with
    | ':' :: rest =>
      let (v, rest) ← readValue rules fuel (skipBlanks rest)
      match skipBlanks rest with
      | '}' :: rest => return ([(.text name, v)], rest)
      | ',' :: rest =>
        let (fields, rest) ← readFields rules fuel (skipBlanks rest)
        return ((.text name, v) :: fields, rest)
      | rest => stop .comma rest
    | rest => stop .colon rest

end

/-- Reads one value and the blanks around it. -/
def readAll (rules : Rules) (s : List Char) : Except Stop Value := do
  let (v, rest) ← readValue rules (2 * s.length + 2) (skipBlanks s)
  match skipBlanks rest with
  | [] => return v
  | rest => stop .extra rest

/-! ## Places -/

/-- Lines and columns count from one, offsets from zero. -/
def Stop.toFault (s : List Char) : Stop → ReadFault
  | .malformed complaint left =>
    let before := s.take (s.length - left)
    let column := (before.reverse.takeWhile (· != '\n')).length + 1
    .malformed complaint (before.count '\n' + 1) column before.length
  | .nonFinite word => .nonFinite word

def valueOfChars (rules : Rules) (s : List Char) : Except ReadFault Value :=
  (readAll rules s).mapError (Stop.toFault s)

/-- The value of a JSON text, which may not begin with a byte order mark. -/
def valueOfText (rules : Rules) (text : String) : Except ReadFault Value :=
  let s := text.toList
  match s with
  | '\uFEFF' :: _ => .error (Stop.toFault s (.malformed .byteOrderMark s.length))
  | _ => valueOfChars rules s

/-- The value of JSON octets in any encoding, with or without a byte order mark. -/
def valueOfOctets (rules : Rules) (octets : List UInt8) : Except ReadFault Value :=
  match Text.decodeDetected octets with
  | .error (encoding, fault) => .error (.undecodable encoding fault)
  | .ok s => valueOfChars rules s

end PageBuilder.Json
