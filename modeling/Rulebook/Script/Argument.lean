import Rulebook.Script.Heap

namespace Rulebook.Script

/-- An error on its way out of a routine. A message gets the place of the call in front of it; a
signal and any other value go as they are. -/
inductive Raised where
  | message (s : String)
  | value (v : Value)

abbrev Attempt := Except Raised

namespace Raised

def signal {α : Type} (s : Signal) : Attempt α := .error (.value (.signal s))

def error {α : Type} (s : String) : Attempt α := .error (.message s)

def outOfMemory : Value := .text "not enough memory"

def argument {α : Type} (routine : String) (i : Nat) (detail : String) : Attempt α :=
  error ("bad argument #" ++ toString i ++ " to '" ++ routine ++ "' (" ++ detail ++ ")")

end Raised

structure Call where
  routine : String
  args : Array Value

namespace Call

def get? (c : Call) (i : Nat) : Option Value := c.args[i - 1]?

def get (c : Call) (i : Nat) : Value := (c.get? i).getD .nil

def count (c : Call) : Nat := c.args.size

def lacks (c : Call) (i : Nat) : Bool := (c.get i).isNil

def typeAt (c : Call) (i : Nat) : String :=
  match c.get? i with
  | some v => v.typeName
  | none => "no value"

def mistyped {α : Type} (c : Call) (i : Nat) (expected : String) : Attempt α :=
  Raised.argument c.routine i (expected ++ " expected, got " ++ c.typeAt i)

def bad {α : Type} (c : Call) (i : Nat) (detail : String) : Attempt α :=
  Raised.argument c.routine i detail

def any (c : Call) (i : Nat) : Attempt Value :=
  match c.get? i with
  | some v => .ok v
  | none => c.bad i "value expected"

def number (c : Call) (i : Nat) : Attempt Number :=
  match (c.get i).toNumber? with
  | some n => .ok n
  | none => c.mistyped i "number"

def float (c : Call) (i : Nat) : Attempt Float := (c.number i).map Number.toFloat

def int (c : Call) (i : Nat) : Attempt Int64 := do
  match (← c.number i).toInt? with
  | some n => .ok n
  | none => c.bad i "number has no integer representation"

def text (c : Call) (i : Nat) : Attempt ByteArray :=
  match (c.get i).toBytes? with
  | some s => .ok s
  | none => c.mistyped i "string"

def table (c : Call) (i : Nat) : Attempt Nat :=
  match c.get i with
  | .table r => .ok r
  | _ => c.mistyped i "table"

def intOr (c : Call) (i : Nat) (absent : Int64) : Attempt Int64 :=
  if c.lacks i then .ok absent else c.int i

def floatOr (c : Call) (i : Nat) (absent : Float) : Attempt Float :=
  if c.lacks i then .ok absent else c.float i

def textOr (c : Call) (i : Nat) (absent : ByteArray) : Attempt ByteArray :=
  if c.lacks i then .ok absent else c.text i

end Call

/-- What is done on the heap by something that may raise an error. What was done before the error
stays done. -/
abbrev Action := ExceptT Raised (StateM Heap)

def giveText (s : ByteArray) : Action (List Value) := return [← modifyGet (·.newText s)]

/-- The text of any value. Things on the heap are told apart by their places. -/
def Value.display : Value → ByteArray
  | nil => bytes "nil"
  | bool b => bytes (if b then "true" else "false")
  | int n => bytes (Number.int n).text
  | float x => bytes (Number.float x).text
  | str s => s
  | table r => bytes ("table: " ++ place r)
  | closure r => bytes ("function: " ++ place r)
  | routine r => bytes ("function: builtin: " ++ r.name)
  | signal s => bytes s.message
where
  place (r : Nat) : String :=
    "0x" ++ Decimal.padLeft 14 '0' (String.ofList (Nat.toDigits 16 (0x55550000 + 64 * r)))

/-- A place in a sequence of a length, counted from its end if negative. -/
def relative (n : Int64) (length : Nat) : Int :=
  if 0 ≤ n then n.toInt else if -n.toInt ≤ length then length + n.toInt + 1 else 0

end Rulebook.Script
