import Rulebook.Script.Number
import Rulebook.Script.Routine
import Rulebook.Evaluation
import Rulebook.Source.JsonText

namespace Rulebook.Script

/-- An error that the surroundings raise, not the script. -/
inductive Signal where
  | refused (refusal : Refusal)
  | timedOut
  | failed (message : String)
deriving DecidableEq

def Signal.message : Signal → String
  | refused r => r.message
  | timedOut => "rule expression timed out"
  | failed message => message

/-- Texts are sequences of bytes. The place of a table or a function on the heap is its identity. -/
inductive Value where
  | nil
  | bool (b : Bool)
  | int (n : Int64)
  | float (x : Float)
  | str (s : ByteArray)
  | table (ref : Nat)
  | closure (ref : Nat)
  | routine (r : Routine)
  | signal (s : Signal)
deriving Inhabited

def bytes (s : String) : ByteArray := s.toUTF8

/-- Bytes as a text, each that is part of no character as a question mark. -/
def readable (s : ByteArray) : String :=
  match Source.decodeUtf8? s with
  | some t => t
  | none => String.ofList ((Source.byteChars s).map fun c => if c.toNat < 128 then c else '?')

namespace Value

def text (s : String) : Value := str (bytes s)

def ofNat (n : Nat) : Value := int (Int64.ofNat n)

def number : Number → Value
  | .int n => int n
  | .float x => float x

def holds : Value → Bool
  | nil => false
  | bool b => b
  | _ => true

def isNil : Value → Bool
  | nil => true
  | _ => false

def typeName : Value → String
  | nil => "nil"
  | bool _ => "boolean"
  | int _ | float _ => "number"
  | str _ => "string"
  | table _ => "table"
  | closure _ | routine _ => "function"
  | signal _ => "userdata"

def number? : Value → Option Number
  | int n => some (.int n)
  | float x => some (.float x)
  | _ => none

def numeral? (s : ByteArray) : Option Number := Number.parse? (Source.byteChars s)

def toNumber? : Value → Option Number
  | int n => some (.int n)
  | float x => some (.float x)
  | str s => numeral? s
  | _ => none

def toInt? (v : Value) : Option Int64 := v.toNumber?.bind Number.toInt?

def toFloat? (v : Value) : Option Float := v.toNumber?.map Number.toFloat

def toBytes? : Value → Option ByteArray
  | str s => some s
  | int n => some (bytes (Number.int n).text)
  | float x => some (bytes (Number.float x).text)
  | _ => none

/-- Equality without conversions, save that the two kinds of numbers are compared by value. -/
def same : Value → Value → Bool
  | nil, nil => true
  | bool a, bool b => a == b
  | int m, int n => m == n
  | float x, float y => x == y
  | int m, float y => Number.same (.int m) (.float y)
  | float x, int n => Number.same (.float x) (.int n)
  | str s, str t => s == t
  | table a, table b => a == b
  | closure a, closure b => a == b
  | routine a, routine b => a == b
  | signal a, signal b => a == b
  | _, _ => false

end Value

instance textEquality : DecidableEq ByteArray := ByteArray.instDecidableEq

/-- What a member of a table is found by. Numbers without fraction are integers. -/
inductive Key where
  | bool (b : Bool)
  | int (n : Int64)
  | float (bits : UInt64)
  | str (s : ByteArray)
  | table (ref : Nat)
  | closure (ref : Nat)
  | routine (r : Routine)
  | signal (message : String)
deriving DecidableEq, Hashable

/-- The key that a value is; none for `nil` and for a not-a-number. -/
def Value.key? : Value → Option Key
  | nil => none
  | bool b => some (.bool b)
  | int n => some (.int n)
  | float x =>
    match Number.whole? x with
    | some n => some (.int n)
    | none => if x.isNaN then none else some (.float x.toBits)
  | str s => some (.str s)
  | table r => some (.table r)
  | closure r => some (.closure r)
  | routine r => some (.routine r)
  | signal s => some (.signal s.message)

def Key.value : Key → Value
  | bool b => .bool b
  | int n => .int n
  | float bits => .float (Float.ofBits bits)
  | str s => .str s
  | table r => .table r
  | closure r => .closure r
  | routine r => .routine r
  | signal m => .signal (.failed m)

end Rulebook.Script
