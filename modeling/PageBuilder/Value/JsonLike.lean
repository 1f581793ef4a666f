import PageBuilder.Double.Text
import PageBuilder.Value.Basic

/-!
The values that JSON has: fields named by texts, and atoms that are null, truth values, integers,
texts and finite numbers. A value that is not of this kind has a first offence, found depth first,
a field's name before its value.
-/

namespace PageBuilder

namespace Offence

inductive Step where
  | field (name : String)
  | item (index : Nat)
  deriving DecidableEq

inductive Cause where
  | undefined
  | keyKind (kind : String)
  | notFinite (x : Double)
  | kind (kind : String)
  deriving DecidableEq

end Offence

/-- What is wrong in a value, and the way to it from the whole value. -/
structure Offence where
  way : List Offence.Step
  cause : Offence.Cause
  deriving DecidableEq

namespace Offence

def under (s : Step) (o : Offence) : Offence := { o with way := s :: o.way }

def Step.text : Step → String
  | field name => "." ++ name
  | item index => "[" ++ toString index ++ "]"

def wayText (o : Offence) : String := o.way.foldl (fun text s => text ++ s.text) "$"

def message (o : Offence) : String :=
  match o.cause with
  | .undefined => "Undefined value at " ++ o.wayText
  | .keyKind kind => "Unsupported key type at " ++ o.wayText ++ ": " ++ kind
  | .notFinite x =>
    "Non-finite float at " ++ o.wayText ++ ": " ++ String.ofList (x.text Double.displayWords)
  | .kind kind => "Unsupported type at " ++ o.wayText ++ ": " ++ kind

end Offence

def Atom.offence? : Atom → Option Offence.Cause
  | missing => some .undefined
  | float x => if x.isFinite then none else some (.notFinite x)
  | octets bytes => some (.kind (Atom.octets bytes).kindName)
  | foreign => some (.kind Atom.foreign.kindName)
  | _ => none

mutual

def Value.offence? : Value → Option Offence
  | .atom a => a.offence?.map fun cause => ⟨[], cause⟩
  | .list items => Value.itemsOffence? 0 items
  | .tuple items => Value.itemsOffence? 0 items
  | .object fields => Value.fieldsOffence? fields
termination_by structural v => v

def Value.itemsOffence? (index : Nat) : List Value → Option Offence
  | [] => none
  | v :: rest =>
    match v.offence? with
    | some o => some (o.under (.item index))
    | none => Value.itemsOffence? (index + 1) rest
termination_by structural vs => vs

def Value.fieldsOffence? : List (Key × Value) → Option Offence
  | [] => none
  | (.text name, v) :: rest =>
    match v.offence? with
    | some o => some (o.under (.field name))
    | none => Value.fieldsOffence? rest
  | (k, _) :: _ => some ⟨[], .keyKind k.kindName⟩
termination_by structural fields => fields

end

def Value.isJsonLike (v : Value) : Bool := v.offence?.isNone

mutual

/-- The value with null for the missing marker and lists for tuples. -/
def Value.jsonable : Value → Value
  | .missing => .null
  | .atom a => .atom a
  | .list items => .list (Value.allJsonable items)
  | .tuple items => .list (Value.allJsonable items)
  | .object fields => .object (Value.fieldsJsonable fields)

def Value.allJsonable : List Value → List Value
  | [] => []
  | v :: rest => v.jsonable :: Value.allJsonable rest

def Value.fieldsJsonable : List (Key × Value) → List (Key × Value)
  | [] => []
  | (k, v) :: rest => (k, v.jsonable) :: Value.fieldsJsonable rest

end

end PageBuilder
