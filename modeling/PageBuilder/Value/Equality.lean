import PageBuilder.Value.Basic

/-!
Equality of values. Numbers of all kinds are equal when they are the same number, the truth values
counting as one and zero; objects are equal whatever the order of their fields. A foreign thing
equals nothing. A number that is none equals nothing either when it stands alone, but it is like
itself wherever it is a part of something: in a list or an object, as a key, and in a set.
-/

namespace PageBuilder

def Atom.int? : Atom → Option Int
  | bool b => some (if b then 1 else 0)
  | int n => some n
  | _ => none

def Atom.same : Atom → Atom → Bool
  | missing, missing => true
  | null, null => true
  | text s, text t => s == t
  | octets a, octets b => a == b
  | float x, float y => x.sameNumber y
  | float x, b => b.int?.any x.isInteger
  | a, float y => a.int?.any y.isInteger
  | a, b =>
    match a.int?, b.int? with
    | some m, some n => m == n
    | _, _ => false

/-- Equality of atoms that are parts. -/
def Atom.alike : Atom → Atom → Bool
  | float .nan, float .nan => true
  | a, b => a.same b

mutual

/-- Whether two keys name the same field. -/
def Key.alike : Key → Key → Bool
  | .atom a, .atom b => a.alike b
  | .tuple xs, .tuple ys => Key.allAlike xs ys
  | _, _ => false

def Key.allAlike : List Key → List Key → Bool
  | [], [] => true
  | x :: xs, y :: ys => x.alike y && Key.allAlike xs ys
  | _, _ => false

end

theorem Key.alike_text_iff (k : Key) (s : String) : k.alike (.text s) = true ↔ k = .text s := by
  cases k with
  | atom a => cases a <;> simp [Key.alike, Atom.alike, Atom.same, Atom.int?]
  | tuple items => simp [Key.alike]

/-! ## Fields -/

namespace Fields

def find? (fields : Fields) (k : Key) : Option Value :=
  match fields with
  | [] => none
  | (j, v) :: rest => if j.alike k then some v else find? rest k

/-- The value of a named field. -/
def get? (fields : Fields) (name : String) : Option Value := find? fields (.text name)

/-- The value of a named field; null where there is none. -/
def field (fields : Fields) (name : String) : Value := (get? fields name).getD .null

def has (fields : Fields) (name : String) : Bool := (get? fields name).isSome

/-- Sets a field in its place, a new one at the end. -/
def put (fields : Fields) (k : Key) (v : Value) : Fields :=
  match fields with
  | [] => [(k, v)]
  | (j, w) :: rest => if j.alike k then (j, v) :: rest else (j, w) :: put rest k v

def set (fields : Fields) (name : String) (v : Value) : Fields := put fields (.text name) v

def erase (fields : Fields) (name : String) : Fields :=
  fields.filter fun (k, _) => !k.alike (.text name)

/-- All fields of `news` put into `fields`, one after the other. -/
def merge (fields news : Fields) : Fields :=
  news.foldl (fun acc (k, v) => put acc k v) fields

/-- Fields from pairs, of which a later one replaces an earlier one with the same key. -/
def ofPairs (pairs : List (Key × Value)) : Fields := merge [] pairs

theorem get?_set (fields : Fields) (name : String) (v : Value) :
    get? (set fields name v) name = some v := by
  unfold get? set
  induction fields with
  | nil => simp [put, find?, Key.alike_text_iff]
  | cons field rest ih =>
    obtain ⟨k, w⟩ := field
    unfold put
    split
    · rename_i h
      simp [find?, h]
    · rename_i h
      simp [find?, h, ih]

theorem get?_set_of_ne (fields : Fields) {name other : String} (v : Value) (hne : other ≠ name) :
    get? (set fields name v) other = get? fields other := by
  unfold get? set
  induction fields with
  | nil => simp [put, find?, Key.alike_text_iff, hne.symm]
  | cons field rest ih =>
    obtain ⟨k, w⟩ := field
    unfold put
    split
    · rename_i h
      rw [Key.alike_text_iff] at h
      subst h
      simp [find?, Key.alike_text_iff, hne.symm]
    · simp only [find?, ih]

theorem get?_erase (fields : Fields) (name : String) : get? (erase fields name) name = none := by
  unfold get? erase
  induction fields with
  | nil => rfl
  | cons field rest ih =>
    obtain ⟨k, w⟩ := field
    cases h : k.alike (.text name) <;> simp [find?, h, ih]

theorem get?_erase_of_ne (fields : Fields) {name other : String} (hne : other ≠ name) :
    get? (erase fields name) other = get? fields other := by
  unfold get? erase
  induction fields with
  | nil => rfl
  | cons field rest ih =>
    obtain ⟨k, w⟩ := field
    cases h : k.alike (.text name)
    · simp [find?, h, ih]
    · rw [Key.alike_text_iff] at h
      subst h
      simp [find?, Key.alike_text_iff, hne.symm, ih]

end Fields

/-- The value of a named field of an object; null where there is none. -/
def Value.field : Value → String → Value
  | .object fields, name => Fields.field fields name
  | _, _ => .null

/-! ## Values -/

mutual

/-- Equality of values that are parts. -/
def Value.alike : Value → Value → Bool
  | .atom a, .atom b => a.alike b
  | .list xs, .list ys => Value.allAlike xs ys
  | .tuple xs, .tuple ys => Value.allAlike xs ys
  | .object fields, .object others =>
    fields.length == others.length && Value.fieldsAlike fields others
  | _, _ => false
termination_by structural v => v

def Value.allAlike : List Value → List Value → Bool
  | [], [] => true
  | x :: xs, y :: ys => x.alike y && Value.allAlike xs ys
  | _, _ => false
termination_by structural vs => vs

/-- Whether every field is found in the others with an equal value. -/
def Value.fieldsAlike : List (Key × Value) → Fields → Bool
  | [], _ => true
  | (k, v) :: rest, others =>
    (match Fields.find? others k with
      | some w => v.alike w
      | none => false) && Value.fieldsAlike rest others
termination_by structural fields => fields

end

/-- Equality of values that stand alone. -/
def Value.same : Value → Value → Bool
  | .atom a, .atom b => a.same b
  | v, w => v.alike w

/-- Whether a value is the given text. -/
def Value.isTextOf (v : Value) (s : String) : Bool := v.same (.text s)

end PageBuilder
