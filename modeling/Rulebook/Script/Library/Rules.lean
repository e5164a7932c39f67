import Rulebook.Script.Argument

namespace Rulebook.Script.Library

/-- Equality for membership. An integer and a floating-point number are compared after rounding the
integer. -/
def sameMember : Value → Value → Bool
  | .int m, .float y => m.toFloat == y
  | .float x, .int n => x == n.toFloat
  | a, b => a.same b

def isTable : Value → Bool
  | .table _ => true
  | _ => false

/-- A member counts by its value, and by its key if its value is a table. -/
def contains (h : Heap) (haystack needle : Value) : Bool :=
  match haystack with
  | .table r => (h.table r).members.any fun (k, v) =>
      sameMember v needle || (isTable v && sameMember k needle)
  | _ => false

def countOf (h : Heap) : Value → Nat
  | .table r => (h.table r).members.length
  | .str s => s.size
  | _ => 0

/-- A segment of a path as a key. A number counts items from zero. -/
def segmentKey (segment : String) : Key :=
  match Text.int64? segment with
  | some n => .int (Int64.ofInt n + 1)
  | none => .str (bytes segment)

def valueBelow (h : Heap) : List String → Value → Option Value
  | [], v => some v
  | s :: ss, .table r => valueBelow h ss ((h.table r).getKey (segmentKey s))
  | _ :: _, _ => none

def lookup (h : Heap) (root : Value) (path : String) (otherwise : Value) : Value :=
  match valueBelow h ((Text.split '.' path).filter (!·.isEmpty)) root with
  | none | some .nil => otherwise
  | some v => v

/-- The number within a range; an end that is not a number is none. -/
def clamp (x low high : Float) : Float :=
  let y := if x.isNaN then low else if x < low then low else x
  if y.isNaN then high else if high < y then high else y

def textArgument (c : Call) (i : Nat) : Attempt String :=
  match (c.get i).toBytes?.bind Source.decodeUtf8? with
  | some s => .ok s
  | none => Raised.signal (.failed ("bad argument #" ++ toString i ++ ": string expected"))

def floatArgument (c : Call) (i : Nat) : Attempt Float :=
  match (c.get i).toFloat? with
  | some x => .ok x
  | none => Raised.signal (.failed ("bad argument #" ++ toString i ++ ": number expected"))

def rule (r : RuleRoutine) (c : Call) (h : Heap) : Attempt (List Value) := do
  match r with
  | .contains => return [.bool (contains h (c.get 1) (c.get 2))]
  | .count => return [.ofNat (countOf h (c.get 1))]
  | .lookup => return [lookup h (c.get 1) (← textArgument c 2) (c.get 3)]
  | .clamp =>
    return [.float (clamp (← floatArgument c 1) (← floatArgument c 2) (← floatArgument c 3))]
  | .log =>
    let _ ← textArgument c 1
    let _ ← textArgument c 2
    return []

end Rulebook.Script.Library
