import PageBuilder.Json.Canonical
import PageBuilder.Json.Reader
import PageBuilder.Limits

/-!
JSON within limits. A text is not read where it nests too deep or has an integer of too many
digits, and a value is not written for the same reasons; apart from that it is read and written as
without limits.
-/

namespace PageBuilder.Json

/-- Why a text was not read: for a fault in it, or for an integer or a depth beyond the limits. -/
inductive Break (ε : Type) where
  | fault (e : ε)
  | digits (limit count : Nat)
  | depth
  deriving DecidableEq

def Break.map (f : ε → φ) : Break ε → Break φ
  | fault e => .fault (f e)
  | digits limit count => .digits limit count
  | depth => .depth

/-- What is said of a text that was not read; nothing of a depth. -/
def Break.message : Break ReadFault → String
  | fault f => f.message
  | digits limit count =>
    "Exceeds the limit (" ++ toString limit ++ " digits) for integer string conversion: value has "
      ++ toString count ++ " digits; use sys.set_int_max_str_digits() to increase the limit"
  | depth => ""

/-! ## Reading -/

/-- A part that was read within limits and the text after it. -/
abbrev ReadWithin (α : Type) := Except (Break Stop) (α × List Char)

def unbroken (r : Read α) : ReadWithin α := r.mapError .fault

def readNumberWithin (limits : Limits) (s : List Char) : ReadWithin Value :=
  match readNumber s with
  | .ok (.int n, rest) =>
    if isShort limits.digits n then .ok (.int n, rest)
    else .error (.digits limits.digits (Nat.toDigits 10 n.natAbs).length)
  | r => unbroken r

/-- Reads a word or a number. -/
def readBareWithin (limits : Limits) (rules : Rules) (s : List Char) : ReadWithin Value :=
  match readWord? rules s with
  | some r => unbroken r
  | none => readNumberWithin limits s

mutual

/-- Reads a value with brackets no more than `room` inside one another. -/
def readValueWithin (limits : Limits) (rules : Rules) :
    Nat → Nat → List Char → Except (Break Stop) (Value × List Char)
  | _, 0, s => unbroken (stop .value s)
  | room, fuel + 1, s =>
    match s with
    | '"' :: _ => unbroken ((readQuoted s).map fun (t, rest) => (.text t, rest))
    | '[' :: rest =>
      match room with
      | 0 => .error .depth
      | room + 1 =>
        match skipBlanks rest with
        | ']' :: rest => .ok (.list [], rest)
        | rest => (readItemsWithin limits rules room fuel rest).map fun (items, rest) =>
          (.list items, rest)
    | '{' :: rest =>
      match room with
      | 0 => .error .depth
      | room + 1 =>
        match skipBlanks rest with
        | '}' :: rest => .ok (.object [], rest)
        | rest => (readFieldsWithin limits rules room fuel rest).map fun (fields, rest) =>
          (.object (Fields.ofPairs fields), rest)
    | _ => readBareWithin limits rules s

def readItemsWithin (limits : Limits) (rules : Rules) :
    Nat → Nat → List Char → Except (Break Stop) (List Value × List Char)
  | _, 0, s => unbroken (stop .value s)
  | room, fuel + 1, s => do
    let (v, rest) ← readValueWithin limits rules room fuel s
    match skipBlanks rest with
    | ']' :: rest => return ([v], rest)
    | ',' :: rest =>
      let (items, rest) ← readItemsWithin limits rules room fuel (skipBlanks rest)
      return (v :: items, rest)
    | rest => unbroken (stop .comma rest)

def readFieldsWithin (limits : Limits) (rules : Rules) :
    Nat → Nat → List Char → Except (Break Stop) (List (Key × Value) × List Char)
  | _, 0, s => unbroken (stop .name s)
  | room, fuel + 1, s => do
    let (name, rest) ← unbroken (readQuoted s)
    match skipBlanks rest with
    | ':' :: rest =>
      let (v, rest) ← readValueWithin limits rules room fuel (skipBlanks rest)
      match skipBlanks rest with
      | '}' :: rest => return ([(.text name, v)], rest)
      | ',' :: rest =>
        let (fields, rest) ← readFieldsWithin limits rules room fuel (skipBlanks rest)
        return ((.text name, v) :: fields, rest)
      | rest => unbroken (stop .comma rest)
    | rest => unbroken (stop .colon rest)

end

/-- Reads one value and the blanks around it. -/
def readAllWithin (limits : Limits) (rules : Rules) (s : List Char) :
    Except (Break Stop) Value := do
  let (v, rest) ← readValueWithin limits rules limits.reading (2 * s.length + 2) (skipBlanks s)
  match skipBlanks rest with
  | [] => return v
  | rest => (stop .extra rest).mapError .fault

/-- The value of a JSON text, which may not begin with a byte order mark. -/
def valueOfTextWithin (limits : Limits) (rules : Rules) (text : String) :
    Except (Break ReadFault) Value :=
  let s := text.toList
  match s with
  | '\uFEFF' :: _ => .error (.fault (Stop.toFault s (.malformed .byteOrderMark s.length)))
  | _ => (readAllWithin limits rules s).mapError (Break.map (Stop.toFault s))

/-! ## Writing -/

inductive TextFault where
  | fault (f : CanonicalFault)
  | overrun (e : Overrun)
  deriving DecidableEq

/-- The canonical text of a value that was found to be one of JSON. -/
def canonicalTextWithin (limits : Limits) (v : Value) : Except TextFault String :=
  match v.offenceWithin limits with
  | .error e => .error (.overrun e)
  | .ok _ =>
    match canonicalText v with
    | .error f => .error (.fault f)
    | .ok text =>
      match (sorted v).overrun? limits.digits limits.writing with
      | some e => .error (.overrun e)
      | none => .ok text

end PageBuilder.Json
