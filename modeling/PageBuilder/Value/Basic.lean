import PageBuilder.Double.Basic

/-!
Values: what a page document, a data context and a reply are made of. Objects keep the order of
their fields. Besides the values of JSON there are sequences of fixed length, octets, a marker for
what is not there, and things of a foreign kind, of which nothing is known.

A value is a tree: what it has at two places is two parts that are alike. Where it makes a
difference that they are one, as it does for nodes that are inserted, there is `Guest`.
-/

namespace PageBuilder

/-- A value without parts. -/
inductive Atom where
  | missing
  | null
  | bool (b : Bool)
  | int (n : Int)
  | float (x : Double)
  | text (s : String)
  | octets (bytes : List UInt8)
  | foreign
  deriving DecidableEq

/-- What can name a field: a value that holds no list and no object. -/
inductive Key where
  | atom (a : Atom)
  | tuple (items : List Key)

inductive Value where
  | atom (a : Atom)
  | list (items : List Value)
  | tuple (items : List Value)
  | object (fields : List (Key × Value))

/-- The fields of an object, in order. -/
abbrev Fields := List (Key × Value)

@[match_pattern] abbrev Key.text (s : String) : Key := .atom (.text s)

namespace Value

@[match_pattern] abbrev missing : Value := .atom .missing
@[match_pattern] abbrev null : Value := .atom .null
@[match_pattern] abbrev bool (b : Bool) : Value := .atom (.bool b)
@[match_pattern] abbrev int (n : Int) : Value := .atom (.int n)
@[match_pattern] abbrev float (x : Double) : Value := .atom (.float x)
@[match_pattern] abbrev text (s : String) : Value := .atom (.text s)
@[match_pattern] abbrev octets (bytes : List UInt8) : Value := .atom (.octets bytes)
@[match_pattern] abbrev foreign : Value := .atom .foreign

instance : Inhabited Value := ⟨null⟩

def ofNat (n : Nat) : Value := .int n

end Value

/-! ## Kinds and truth -/

def Atom.kindName : Atom → String
  | missing => "_Missing"
  | null => "NoneType"
  | bool _ => "bool"
  | int _ => "int"
  | float _ => "float"
  | text _ => "str"
  | octets _ => "bytes"
  | foreign => "Opaque"

def Key.kindName : Key → String
  | atom a => a.kindName
  | tuple _ => "tuple"

def Value.kindName : Value → String
  | atom a => a.kindName
  | list _ => "list"
  | tuple _ => "tuple"
  | object _ => "dict"

/-- Nothing, zero and everything empty are false. -/
def Atom.truthy : Atom → Bool
  | missing => false
  | null => false
  | bool b => b
  | int n => n != 0
  | float x => !x.isZero
  | text s => !s.isEmpty
  | octets bytes => !bytes.isEmpty
  | foreign => true

def Value.truthy : Value → Bool
  | atom a => a.truthy
  | list items => !items.isEmpty
  | tuple items => !items.isEmpty
  | object fields => !fields.isEmpty

def Value.isObject : Value → Bool
  | object _ => true
  | _ => false

def Value.fields? : Value → Option Fields
  | object fields => some fields
  | _ => none

def Value.isText : Value → Bool
  | text _ => true
  | _ => false

def Value.text? : Value → Option String
  | text s => some s
  | _ => none

def Value.isMissing : Value → Bool
  | missing => true
  | _ => false

def Value.isNull : Value → Bool
  | null => true
  | _ => false

/-! ## Keys and values -/

mutual

def Key.toValue : Key → Value
  | .atom a => .atom a
  | .tuple items => .tuple (Key.toValues items)

def Key.toValues : List Key → List Value
  | [] => []
  | k :: rest => k.toValue :: Key.toValues rest

end

mutual

/-- The key that a value is; lists and objects are none. -/
def Value.toKey? : Value → Option Key
  | .atom a => some (.atom a)
  | .tuple items => (Value.toKeys? items).map .tuple
  | _ => none

def Value.toKeys? : List Value → Option (List Key)
  | [] => some []
  | v :: rest => do
    let k ← v.toKey?
    let rest ← Value.toKeys? rest
    return k :: rest

end

/-- Whether a value can be a key, and hence a member of a set. -/
def Value.isHashable (v : Value) : Bool := v.toKey?.isSome

end PageBuilder
