import PageBuilder.Fault
import PageBuilder.Text.CodePoint
import PageBuilder.Text.Numeral
import PageBuilder.Value.Display

/-!
Values read as integers: numbers lose their fraction, texts have to be numerals.
-/

namespace PageBuilder

/-- Of a text that is no numeral only so many characters are shown. -/
def shownNumeralLimit : Nat := 200

def numeral (s shown : List Char) : Except Fault Int :=
  match Text.Numeral.integer? s with
  | some n => .ok n
  | none => .error (.integerText (String.ofList (shown.take shownNumeralLimit)))

/-- The integer that a text is the numeral of. -/
def numeralOfText (s : String) : Except Fault Int := numeral s.toList (Text.quoted s.toList)

/-- The integer that octets are the numeral of, which is in ASCII. -/
def numeralOfOctets (octets : List UInt8) : Except Fault Int :=
  let s := octets.map fun b => if b < 0x80 then Char.ofNat b.toNat else Text.replacement
  numeral s (Text.quotedOctets octets)

def Double.truncated (x : Double) : Except Fault Int :=
  match x with
  | nan => .error .notNumberIndex
  | infinity _ => .error .infiniteIndex
  | x => .ok (x.truncate?.getD 0)

def Value.integer : Value → Except Fault Int
  | .bool b => .ok (if b then 1 else 0)
  | .int n => .ok n
  | .float x => x.truncated
  | .text s => numeralOfText s
  | .octets bytes => numeralOfOctets bytes
  | _ => .error .integerKind

end PageBuilder
