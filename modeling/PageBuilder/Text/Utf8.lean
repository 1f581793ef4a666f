import PageBuilder.Text.CodePoint
import PageBuilder.Text.Encoding

/-!
UTF-8. Decoding goes octet by octet and refuses a text at the first octet that rules it out; what
is reported then is the begun character, or the octet itself if it begins none.
-/

namespace PageBuilder.Text.Utf8

def encode (s : String) : List UInt8 := s.toList.flatMap String.utf8EncodeChar

/-- A begun character: how many octets are owed, the bounds of the next one, and the bits so
far. -/
structure Begun where
  start : Nat
  first : UInt8
  owed : Nat
  least : UInt8
  greatest : UInt8
  bits : Nat

def begin? (place : Nat) (b : UInt8) : Option Begun :=
  let begun (owed : Nat) (least greatest : UInt8) (bits : Nat) : Begun :=
    ⟨place, b, owed, least, greatest, bits⟩
  let n := b.toNat
  if 0xc2 ≤ n && n ≤ 0xdf then some (begun 1 0x80 0xbf (n - 0xc0))
  else if n == 0xe0 then some (begun 2 0xa0 0xbf 0)
  else if n == 0xed then some (begun 2 0x80 0x9f (n - 0xe0))
  else if 0xe1 ≤ n && n ≤ 0xef then some (begun 2 0x80 0xbf (n - 0xe0))
  else if n == 0xf0 then some (begun 3 0x90 0xbf 0)
  else if 0xf1 ≤ n && n ≤ 0xf3 then some (begun 3 0x80 0xbf (n - 0xf0))
  else if n == 0xf4 then some (begun 3 0x80 0x8f (n - 0xf0))
  else none

def Begun.refuse (p : Begun) (place : Nat) (reason : DecodeFault.Reason) : DecodeFault :=
  ⟨p.start, place - p.start, p.first, reason⟩

def decodeFrom (place : Nat) : Option Begun → List UInt8 → Except DecodeFault (List Char)
  | none, [] => .ok []
  | some p, [] => .error (p.refuse place .endOfData)
  | none, b :: rest =>
    if b < 0x80 then (decodeFrom (place + 1) none rest).map (Char.ofNat b.toNat :: ·)
    else match begin? place b with
      | some p => decodeFrom (place + 1) (some p) rest
      | none => .error ⟨place, 1, b, .startOctet⟩
  | some p, b :: rest =>
    if p.least ≤ b && b ≤ p.greatest then
      let bits := p.bits * 64 + (b.toNat - 0x80)
      if p.owed ≤ 1 then (decodeFrom (place + 1) none rest).map (ofCodePoint bits :: ·)
      else
        let p := { p with owed := p.owed - 1, least := 0x80, greatest := 0xbf, bits := bits }
        decodeFrom (place + 1) (some p) rest
    else .error (p.refuse place .continuationOctet)

def decode (octets : List UInt8) : Except DecodeFault (List Char) := decodeFrom 0 none octets

/-- Puts the replacement character for each encoded surrogate. -/
def maskSurrogates : List UInt8 → List UInt8
  | 0xed :: b :: c :: rest =>
    if 0xa0 ≤ b && b ≤ 0xbf && 0x80 ≤ c && c ≤ 0xbf then
      0xef :: 0xbf :: 0xbd :: maskSurrogates rest
    else 0xed :: maskSurrogates (b :: c :: rest)
  | b :: rest => b :: maskSurrogates rest
  | [] => []

end PageBuilder.Text.Utf8
