import PageBuilder.Value.JsonLike

/-!
Limits of the machine that runs the editor. Integers are turned into texts, and read from texts,
only up to a number of digits; and work on what is nested takes up the stack, a step for every
part inside another one. Work that comes to a limit is given up without an answer.
-/

namespace PageBuilder

/-- The most digits of an integer that has a text, and how deep each kind of work can go. -/
structure Limits where
  digits : Nat
  /-- Reading a text: brackets inside one another. -/
  reading : Nat
  /-- Checking that a value is one of JSON. -/
  checking : Nat
  /-- Checking the nodes of a tree. -/
  visiting : Nat
  /-- Putting the text of a value into a message. -/
  showing : Nat
  /-- Writing a value as JSON. -/
  writing : Nat
  /-- Copying a value, where every part takes two steps. -/
  copying : Nat

/-- The usual limits: 4300 digits, and a stack of a thousand steps of which some are taken. -/
def Limits.usual : Limits where
  digits := 4300
  reading := 980
  checking := 980
  visiting := 980
  showing := 980
  writing := 980
  copying := 480

/-- What was in the way of an answer. -/
inductive Overrun where
  | digits
  | depth
  deriving DecidableEq

/-! ## Texts of values -/

/-- Whether an integer has no more digits than the limit. -/
def isShort (digits : Nat) (n : Int) : Bool := decide (n.natAbs < Nat.pow 10 digits)

/-- What is in the way of a text for an atom; only integers have a limit. -/
def Atom.overrun? (digits : Nat) : Atom → Option Overrun
  | .int n => if isShort digits n then none else some .digits
  | _ => none

/-- What is met first, part by part, that is in the way of a text for a value. -/
def Value.overrun? (digits : Nat) : Nat → Value → Option Overrun
  | 0, _ => some .depth
  | _ + 1, .atom a => a.overrun? digits
  | room + 1, .list items => items.findSome? (Value.overrun? digits room)
  | room + 1, .tuple items => items.findSome? (Value.overrun? digits room)
  | room + 1, .object fields => fields.findSome? fun (k, v) =>
    (k.toValue.overrun? digits room).or (v.overrun? digits room)

/-! ## Copies -/

/-- Whether a value nests no deeper than the limit. -/
def Value.fits : Nat → Value → Bool
  | 0, _ => false
  | _ + 1, .atom _ => true
  | room + 1, .list items => items.all (Value.fits room)
  | room + 1, .tuple items => items.all (Value.fits room)
  | room + 1, .object fields => fields.all fun (k, v) => k.toValue.fits room && v.fits room

/-! ## Checks of values -/

/-- Where a check of a value stops before it has seen all of it. -/
inductive Halt where
  | offence
  | depth
  deriving DecidableEq

/-- What a check of a value stops at, if it stops. -/
def Value.halt? : Nat → Value → Option Halt
  | 0, _ => some .depth
  | _ + 1, .atom a => a.offence?.map fun _ => .offence
  | room + 1, .list items => items.findSome? (Value.halt? room)
  | room + 1, .tuple items => items.findSome? (Value.halt? room)
  | room + 1, .object fields => fields.findSome? fun (k, v) =>
    match k with
    | .text _ => v.halt? room
    | _ => some .offence

/-- The first offence in a value, where the check comes to an end. -/
def Value.offenceWithin (limits : Limits) (v : Value) : Except Overrun (Option Offence) :=
  if v.halt? limits.checking = some .depth then .error .depth else .ok v.offence?

end PageBuilder
