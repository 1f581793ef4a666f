import PageBuilder.Text.Quoted

/-!
The encodings of text in octets, and what is said of octets that are no text.
-/

namespace PageBuilder.Text

inductive Encoding where
  | utf8
  | utf16 (bigEndian : Bool)
  | utf32 (bigEndian : Bool)
  deriving DecidableEq

def Encoding.name : Encoding → String
  | utf8 => "utf-8"
  | utf16 true => "utf-16-be"
  | utf16 false => "utf-16-le"
  | utf32 true => "utf-32-be"
  | utf32 false => "utf-32-le"

namespace DecodeFault

inductive Reason where
  | startOctet
  | continuationOctet
  | endOfData
  | truncated
  | range
  deriving DecidableEq

def Reason.text : Reason → String
  | startOctet => "invalid start byte"
  | continuationOctet => "invalid continuation byte"
  | endOfData => "unexpected end of data"
  | truncated => "truncated data"
  | range => "code point not in range(0x110000)"

end DecodeFault

/-- The octets from place `start` on, `width` of them, are no text. -/
structure DecodeFault where
  start : Nat
  width : Nat
  first : UInt8
  reason : DecodeFault.Reason
  deriving DecidableEq

def DecodeFault.message (e : Encoding) (f : DecodeFault) : String :=
  let what :=
    if f.width = 1 then
      "byte 0x" ++ String.ofList (hex 2 f.first.toNat) ++ " in position " ++ toString f.start
    else
      "bytes in position " ++ toString f.start ++ "-" ++ toString (f.start + f.width - 1)
  "'" ++ e.name ++ "' codec can't decode " ++ what ++ ": " ++ f.reason.text

end PageBuilder.Text
