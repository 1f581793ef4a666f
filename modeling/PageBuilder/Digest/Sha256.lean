/-!
SHA-256 of octets, by which a tree is told from another one.
-/

namespace PageBuilder.Digest

/-! ## Words -/

def rotate (w : UInt32) (n : UInt32) : UInt32 := (w >>> n) ||| (w <<< (32 - n))

def smallSigma0 (w : UInt32) : UInt32 := rotate w 7 ^^^ rotate w 18 ^^^ (w >>> 3)
def smallSigma1 (w : UInt32) : UInt32 := rotate w 17 ^^^ rotate w 19 ^^^ (w >>> 10)
def bigSigma0 (w : UInt32) : UInt32 := rotate w 2 ^^^ rotate w 13 ^^^ rotate w 22
def bigSigma1 (w : UInt32) : UInt32 := rotate w 6 ^^^ rotate w 11 ^^^ rotate w 25

def choose (e f g : UInt32) : UInt32 := (e &&& f) ^^^ (~~~e &&& g)
def majority (a b c : UInt32) : UInt32 := (a &&& b) ^^^ (a &&& c) ^^^ (b &&& c)

/-- The fractions of the cube roots of the first 64 primes. -/
def roundConstants : List UInt32 := [
    0x428a2f98, 0x71374491, 0xb5c0fbcf, 0xe9b5dba5, 0x3956c25b, 0x59f111f1,
    0x923f82a4, 0xab1c5ed5, 0xd807aa98, 0x12835b01, 0x243185be, 0x550c7dc3,
    0x72be5d74, 0x80deb1fe, 0x9bdc06a7, 0xc19bf174, 0xe49b69c1, 0xefbe4786,
    0x0fc19dc6, 0x240ca1cc, 0x2de92c6f, 0x4a7484aa, 0x5cb0a9dc, 0x76f988da,
    0x983e5152, 0xa831c66d, 0xb00327c8, 0xbf597fc7, 0xc6e00bf3, 0xd5a79147,
    0x06ca6351, 0x14292967, 0x27b70a85, 0x2e1b2138, 0x4d2c6dfc, 0x53380d13,
    0x650a7354, 0x766a0abb, 0x81c2c92e, 0x92722c85, 0xa2bfe8a1, 0xa81a664b,
    0xc24b8b70, 0xc76c51a3, 0xd192e819, 0xd6990624, 0xf40e3585, 0x106aa070,
    0x19a4c116, 0x1e376c08, 0x2748774c, 0x34b0bcb5, 0x391c0cb3, 0x4ed8aa4a,
    0x5b9cca4f, 0x682e6ff3, 0x748f82ee, 0x78a5636f, 0x84c87814, 0x8cc70208,
    0x90befffa, 0xa4506ceb, 0xbef9a3f7, 0xc67178f2]

structure Chain where
  a : UInt32
  b : UInt32
  c : UInt32
  d : UInt32
  e : UInt32
  f : UInt32
  g : UInt32
  h : UInt32
  deriving DecidableEq

/-- The fractions of the square roots of the first eight primes. -/
def Chain.initial : Chain :=
  ⟨0x6a09e667, 0xbb67ae85, 0x3c6ef372, 0xa54ff53a,
    0x510e527f, 0x9b05688c, 0x1f83d9ab, 0x5be0cd19⟩

def Chain.add (x y : Chain) : Chain :=
  ⟨x.a + y.a, x.b + y.b, x.c + y.c, x.d + y.d, x.e + y.e, x.f + y.f, x.g + y.g, x.h + y.h⟩

def Chain.words (x : Chain) : List UInt32 := [x.a, x.b, x.c, x.d, x.e, x.f, x.g, x.h]

/-! ## Blocks -/

def wordOf (octets : List UInt8) : UInt32 :=
  octets.foldl (fun w b => (w <<< 8) ||| b.toUInt32) 0

def octetsOf (w : UInt32) : List UInt8 :=
  [24, 16, 8, 0].map fun (n : UInt32) => (w >>> n).toUInt8

/-- Parts of `size` items each, as many as `count` says. -/
def chunks (size : Nat) : Nat → List α → List (List α)
  | 0, _ => []
  | count + 1, items => items.take size :: chunks size count (items.drop size)

/-- A one bit, zeros, and the length in bits fill up the last block. -/
def padded (octets : List UInt8) : List UInt8 :=
  let length := octets.length
  let zeros := (119 - length % 64) % 64
  let bits := UInt64.ofNat (8 * length)
  let size := [56, 48, 40, 32, 24, 16, 8, 0].map fun (n : UInt64) => (bits >>> n).toUInt8
  octets ++ 0x80 :: (List.replicate zeros 0 ++ size)

/-- The sixteen words of a block, the last one first, and then those that follow from them. -/
def extend : Nat → List UInt32 → List UInt32
  | 0, words => words
  | n + 1, words =>
    let back (i : Nat) := words.getD (i - 1) 0
    extend n ((smallSigma1 (back 2) + back 7 + smallSigma0 (back 15) + back 16) :: words)

def schedule (block : List UInt8) : List UInt32 :=
  (extend 48 ((chunks 4 16 block).map wordOf).reverse).reverse

def turn (x : Chain) (constant word : UInt32) : Chain :=
  let first := x.h + bigSigma1 x.e + choose x.e x.f x.g + constant + word
  let second := bigSigma0 x.a + majority x.a x.b x.c
  ⟨first + second, x.a, x.b, x.c, x.d + first, x.e, x.f, x.g⟩

def compress (x : Chain) (block : List UInt8) : Chain :=
  x.add ((roundConstants.zip (schedule block)).foldl (fun x (c, w) => turn x c w) x)

def sha256 (octets : List UInt8) : List UInt8 :=
  let message := padded octets
  let blocks := chunks 64 (message.length / 64) message
  (blocks.foldl compress Chain.initial).words.flatMap octetsOf

end PageBuilder.Digest
