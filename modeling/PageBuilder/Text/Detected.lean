import PageBuilder.Text.Utf8

/-!
Text whose encoding is found from its first octets: from the byte order mark, or else from the
places of zeros, as the first two characters are taken for ASCII. Surrogates count as characters.
-/

namespace PageBuilder.Text

/-! ## Wide units -/

def joined (bigEndian : Bool) (octets : List UInt8) : Nat :=
  (if bigEndian then octets else octets.reverse).foldl (fun n b => n * 256 + b.toNat) 0

/-- The numbers of units of two octets. -/
def units16 (bigEndian : Bool) (place : Nat) : List UInt8 → Except DecodeFault (List Nat)
  | [] => .ok []
  | [a] => .error ⟨place, 1, a, .truncated⟩
  | a :: b :: rest =>
    (units16 bigEndian (place + 2) rest).map (joined bigEndian [a, b] :: ·)

def decode16 (bigEndian : Bool) (place : Nat) (octets : List UInt8) :
    Except DecodeFault (List Char) :=
  (units16 bigEndian place octets).map joinPairs

def decode32 (bigEndian : Bool) (place : Nat) : List UInt8 → Except DecodeFault (List Char)
  | a :: b :: c :: d :: rest =>
    let n := joined bigEndian [a, b, c, d]
    if 0x110000 ≤ n then .error ⟨place, 4, a, .range⟩
    else (decode32 bigEndian (place + 4) rest).map (ofCodePoint n :: ·)
  | [] => .ok []
  | a :: rest => .error ⟨place, rest.length + 1, a, .truncated⟩

/-! ## Detection -/

/-- The encoding of the octets, and how many of them are a byte order mark. -/
def detect : List UInt8 → Encoding × Nat
  | 0x00 :: 0x00 :: 0xfe :: 0xff :: _ => (.utf32 true, 4)
  | 0xff :: 0xfe :: 0x00 :: 0x00 :: _ => (.utf32 false, 4)
  | 0xfe :: 0xff :: _ => (.utf16 true, 2)
  | 0xff :: 0xfe :: _ => (.utf16 false, 2)
  | 0xef :: 0xbb :: 0xbf :: _ => (.utf8, 3)
  | a :: b :: c :: d :: _ =>
    if a == 0 then (if b == 0 then .utf32 true else .utf16 true, 0)
    else if b == 0 then (if c == 0 && d == 0 then .utf32 false else .utf16 false, 0)
    else (.utf8, 0)
  | [a, b] => if a == 0 then (.utf16 true, 0) else if b == 0 then (.utf16 false, 0) else (.utf8, 0)
  | _ => (.utf8, 0)

/-- Places count from the byte order mark on, which only UTF-8 leaves out of the text. -/
def decodeDetected (octets : List UInt8) : Except (Encoding × DecodeFault) (List Char) :=
  let (encoding, mark) := detect octets
  let rest := octets.drop mark
  let text := match encoding with
    | .utf8 => Utf8.decode (Utf8.maskSurrogates rest)
    | .utf16 bigEndian => decode16 bigEndian mark rest
    | .utf32 bigEndian => decode32 bigEndian mark rest
  text.mapError (encoding, ·)

end PageBuilder.Text
