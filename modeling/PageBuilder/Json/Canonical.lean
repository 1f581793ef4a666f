import PageBuilder.Digest.Sha256
import PageBuilder.Json.Writer
import PageBuilder.Text.Utf8
import PageBuilder.Value.JsonLike

/-!
The canonical text of a value: no blanks, and the fields of every object in the order of their
names. Its digest tells trees apart.
-/

namespace PageBuilder.Json

/-- Whether a name comes first or is the same, by the code points of its characters. -/
def nameOrder (a b : Key × Value) : Bool :=
  match a.1, b.1 with
  | .text s, .text t => !decide (t < s)
  | _, _ => true

mutual

def sorted : Value → Value
  | .atom a => .atom a
  | .list items => .list (sortedItems items)
  | .tuple items => .tuple (sortedItems items)
  | .object fields => .object ((sortedFields fields).mergeSort nameOrder)

def sortedItems : List Value → List Value
  | [] => []
  | v :: rest => sorted v :: sortedItems rest

def sortedFields : List (Key × Value) → List (Key × Value)
  | [] => []
  | (k, v) :: rest => (k, sorted v) :: sortedFields rest

end

inductive CanonicalFault where
  | offence (o : Offence)
  | unwritable (fault : WriteFault)
  deriving DecidableEq

def CanonicalFault.message : CanonicalFault → String
  | offence o => o.message
  | unwritable fault => fault.message

def canonicalText (v : Value) : Except CanonicalFault String :=
  match v.offence? with
  | some o => .error (.offence o)
  | none => (text .compact (sorted v)).mapError .unwritable

def digestText (s : String) : String :=
  "sha256:" ++ String.ofList
    ((Digest.sha256 (Text.Utf8.encode s)).flatMap fun b => Text.hex 2 b.toNat)

def digest (v : Value) : Except CanonicalFault String :=
  (canonicalText v).map digestText

end PageBuilder.Json
