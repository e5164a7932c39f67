import Rulebook.Fields

namespace Rulebook

/-- Whole numbers written without a point or exponent are integers and stay apart from
floating-point numbers: `1` and `1.0` are different values. -/
inductive Json where
  | null
  | bool (b : Bool)
  | int (n : Int)
  | float (x : Float)
  | str (s : String)
  | arr (items : List Json)
  | obj (members : List (String × Json))
deriving Inhabited

namespace Json

def typeName : Json → String
  | null => "null"
  | bool _ => "boolean"
  | int _ | float _ => "number"
  | str _ => "string"
  | arr _ => "array"
  | obj _ => "object"

def empty : Json := obj []

def ofString? : Json → Option String
  | str s => some s
  | _ => none

def get? (name : String) : Json → Option Json
  | obj members => Fields.get? members name
  | _ => none

/-- Equality of values. Numbers are equal when they are of one kind and of one value, so zero
equals minus zero and no number is equal to a not-a-number. -/
def same : Json → Json → Bool
  | null, null => true
  | bool a, bool b => a == b
  | int a, int b => a == b
  | float a, float b => a == b
  | str a, str b => a == b
  | arr xs, arr ys => sameItems xs ys
  | obj xs, obj ys => sameMembers xs ys
  | _, _ => false
where
  sameItems : List Json → List Json → Bool
    | [], [] => true
    | x :: xs, y :: ys => same x y && sameItems xs ys
    | _, _ => false
  sameMembers : List (String × Json) → List (String × Json) → Bool
    | [], [] => true
    | (a, x) :: xs, (b, y) :: ys => a == b && same x y && sameMembers xs ys
    | _, _ => false

def int64Min : Int := -9223372036854775808
def int64Max : Int := 9223372036854775807
def nat64Max : Int := 18446744073709551615

def toFloat? : Json → Option Float
  | int n => some (Float.ofInt n)
  | float x => some x
  | _ => none

/-- Rules accept everything but `null`, `false`, zero, not-a-numbers and the empty text. -/
def truthy : Json → Bool
  | null => false
  | bool b => b
  | int n => n != 0
  | float x => x != 0 && !x.isNaN
  | str s => !s.isEmpty
  | arr _ | obj _ => true

end Json

end Rulebook
