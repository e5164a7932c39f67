import Rulebook.Script.Argument

namespace Rulebook.Script.Operation

def lessBytes (a b : ByteArray) : Bool :=
  let rec go : Nat → Nat → Bool
    | 0, _ => false
    | fuel + 1, i =>
      match a[i]?, b[i]? with
      | _, none => false
      | none, some _ => true
      | some x, some y => if x = y then go fuel (i + 1) else x < y
  go (min a.size b.size + 1) 0

def incomparable {α : Type} (a b : Value) : Attempt α :=
  if a.typeName = b.typeName then
    Raised.error ("attempt to compare two " ++ a.typeName ++ " values")
  else Raised.error ("attempt to compare " ++ a.typeName ++ " with " ++ b.typeName)

def less (a b : Value) : Attempt Bool :=
  match a, b with
  | .int m, .int n => .ok (m < n)
  | .float x, .float y => .ok (x < y)
  | .str s, .str t => .ok (lessBytes s t)
  | a, b =>
    match a.number?, b.number? with
    | some m, some n => .ok (m.less n)
    | _, _ => incomparable a b

def lessEq (a b : Value) : Attempt Bool :=
  match a, b with
  | .int m, .int n => .ok (m ≤ n)
  | .float x, .float y => .ok (x ≤ y)
  | .str s, .str t => .ok (!lessBytes t s)
  | a, b =>
    match a.number?, b.number? with
    | some m, some n => .ok (m.lessEq n)
    | _, _ => incomparable a b

def arithmeticOn {α : Type} (v : Value) : Attempt α :=
  Raised.error ("attempt to perform arithmetic on a " ++ v.typeName ++ " value")

/-- The operands of an arithmetic operator. -/
def operands (a b : Value) : Attempt (Number × Number) :=
  match a.toNumber?, b.toNumber? with
  | some m, some n => .ok (m, n)
  | _, _ =>
    match a, b with
    | .str _, .str _ | .str _, .int _ | .str _, .float _ | .int _, .str _ | .float _, .str _ =>
      arithmeticOn a
    | .str _, b => arithmeticOn b
    | a, b => if a.number?.isSome then arithmeticOn b else arithmeticOn a

def mixed (ints : Int64 → Int64 → Attempt Int64) (floats : Float → Float → Float) (a b : Value) :
    Attempt Value :=
  match a, b with
  | .int m, .int n => (ints m n).map .int
  | .float x, .float y => .ok (.float (floats x y))
  | a, b => do
    match ← operands a b with
    | (.int m, .int n) => return .int (← ints m n)
    | (m, n) => return .float (floats m.toFloat n.toFloat)

def floats (f : Float → Float → Float) (a b : Value) : Attempt Value := do
  let (m, n) ← operands a b
  return .float (f m.toFloat n.toFloat)

def nonZero (message : String) (f : Int64 → Int64 → Int64) (m n : Int64) : Attempt Int64 :=
  if n = 0 then Raised.error message else .ok (f m n)

def bits (v other : Value) : Attempt Int64 :=
  match v.number?, v with
  | some n, _ =>
    match n.toInt? with
    | some i => .ok i
    | none =>
      if other.number?.isSome then Raised.error "number has no integer representation"
      else
        Raised.error ("attempt to perform bitwise operation on a " ++ other.typeName ++ " value")
  | none, v =>
    Raised.error ("attempt to perform bitwise operation on a " ++ v.typeName ++ " value")

def onBits (f : Int64 → Int64 → Int64) (a b : Value) : Attempt Value := do
  let m ← bits a b
  let n ← bits b a
  return .int (f m n)

def concat (a b : Value) : Attempt Value :=
  match a.toBytes?, b.toBytes? with
  | some s, some t => .ok (.str (s ++ t))
  | some _, none => Raised.error ("attempt to concatenate a " ++ b.typeName ++ " value")
  | none, _ => Raised.error ("attempt to concatenate a " ++ a.typeName ++ " value")

def binary (op : Binary) (a b : Value) : Attempt Value :=
  match op with
  | .add => mixed (fun m n => .ok (m + n)) (· + ·) a b
  | .sub => mixed (fun m n => .ok (m - n)) (· - ·) a b
  | .mul => mixed (fun m n => .ok (m * n)) (· * ·) a b
  | .mod => mixed (nonZero "attempt to perform 'n%%0'" Number.floorMod) Number.floatMod a b
  | .floorDiv =>
    mixed (nonZero "attempt to perform 'n//0'" Number.floorDiv) (fun x y => (x / y).floor) a b
  | .pow => floats Number.raise a b
  | .div => floats (· / ·) a b
  | .band => onBits (· &&& ·) a b
  | .bor => onBits (· ||| ·) a b
  | .bxor => onBits (· ^^^ ·) a b
  | .shl => onBits Number.shiftLeft a b
  | .shr => onBits (fun m n => if n = Int64.minValue then 0 else Number.shiftLeft m (-n)) a b
  | .concat => concat a b
  | .eq => .ok (.bool (a.same b))
  | .ne => .ok (.bool (!a.same b))
  | .lt => (less a b).map .bool
  | .le => (lessEq a b).map .bool
  | .gt => (less b a).map .bool
  | .ge => (lessEq b a).map .bool

/-- Operators on one value; the length of a table is asked of the heap. -/
def unary (op : Unary) (v : Value) : Attempt Value :=
  match op with
  | .not => .ok (.bool !v.holds)
  | .negate =>
    match v.toNumber? with
    | some n => .ok (.number n.negate)
    | none => arithmeticOn v
  | .invert => do return .int (~~~(← bits v v))
  | .length =>
    match v with
    | .str s => .ok (.ofNat s.size)
    | v => Raised.error ("attempt to get length of a " ++ v.typeName ++ " value")

end Rulebook.Script.Operation
