import Rulebook.Decimal.Rounding
import Rulebook.Decimal.Notation
import Rulebook.Decimal.Reading

namespace Rulebook.Script

inductive Number where
  | int (n : Int64)
  | float (x : Float)

namespace Number

def lowEnd : Float := -9223372036854775808
def highEnd : Float := 9223372036854775808

def inRange (x : Float) : Bool := lowEnd ≤ x && x < highEnd

def whole? (x : Float) : Option Int64 :=
  if inRange x && x.floor == x then some x.toInt64 else none

def toFloat : Number → Float
  | int n => n.toFloat
  | float x => x

def toInt? : Number → Option Int64
  | int n => some n
  | float x => whole? x

def compareMixed (n : Int64) (x : Float) : Option Ordering :=
  if x.isNaN then none
  else if highEnd ≤ x then some .lt
  else if x < lowEnd then some .gt
  else
    let m := x.floor.toInt64
    if n < m then some .lt
    else if m < n then some .gt
    else if x.floor == x then some .eq else some .lt

/-- The order of two numbers by value; none if one of them is not a number. -/
def compare? : Number → Number → Option Ordering
  | int m, int n => some (if m < n then .lt else if m = n then .eq else .gt)
  | float x, float y =>
    if x < y then some .lt else if x == y then some .eq else if y < x then some .gt else none
  | int m, float y => compareMixed m y
  | float x, int n => (compareMixed n x).map Ordering.swap

def less (a b : Number) : Bool := compare? a b == some .lt
def lessEq (a b : Number) : Bool := compare? a b == some .lt || compare? a b == some .eq
def same (a b : Number) : Bool := compare? a b == some .eq

/-- Division that rounds down; the remainder has the sign of the divisor. -/
def floorDiv (m n : Int64) : Int64 :=
  if n = -1 then -m
  else
    let q := m / n
    if m % n ≠ 0 && ((m < 0) != (n < 0)) then q - 1 else q

def floorMod (m n : Int64) : Int64 :=
  if n = -1 then 0
  else
    let r := m % n
    if r ≠ 0 && ((r < 0) != (n < 0)) then r + n else r

def remainder (x y : Float) : Float :=
  if x.isNaN || y.isNaN || x.isInf || y == 0 then 0.0 / 0.0
  else if y.isInf || x == 0 then x
  else
    let a := Decimal.Binary.ofFloat x
    let b := Decimal.Binary.ofFloat y
    let q := min a.q b.q
    let r := (a.m * Decimal.twoTo (a.q - q)) % (b.m * Decimal.twoTo (b.q - q))
    let z := (Float.ofNat r).scaleB q
    if Decimal.isNegative x then -z else z

def floatMod (x y : Float) : Float :=
  let r := remainder x y
  if (if 0 < r then y < 0 else r < 0 && y != r) then r + y else r

def raise (x y : Float) : Float := if y == 2 then x * x else x.pow y

/-- A shift by a number of places, to the right if negative. Places that are shifted in are zero. -/
def shiftLeft (m n : Int64) : Int64 :=
  if n ≤ -64 || 64 ≤ n then 0
  else if 0 ≤ n then (m.toUInt64 <<< n.toUInt64).toInt64
  else (m.toUInt64 >>> (-n).toUInt64).toInt64

/-- Fourteen digits, positional from four places after the point to fourteen before it; whole
floating-point numbers show it by `.0`. -/
def form : Decimal.Notation := ⟨-4, 13, true, 2⟩

def floatText (x : Float) : String :=
  if x.isNaN then "-nan"
  else if x.isInf then (if x < 0 then "-inf" else "inf")
  else form.write (Decimal.isNegative x) ((Decimal.Binary.ofFloat x).significant 14).strip

def text : Number → String
  | int n => toString n.toInt
  | float x => floatText x

def isSpace (c : Char) : Bool :=
  c = ' ' || c = '\n' || c = '\r' || c = '\t' || c = '\x0b' || c = '\x0c'

def hexDigit? (c : Char) : Option Nat :=
  if c.isDigit then some (c.toNat - 48)
  else if 'a' ≤ c && c ≤ 'f' then some (c.toNat - 87)
  else if 'A' ≤ c && c ≤ 'F' then some (c.toNat - 55)
  else none

def isHexDigit (c : Char) : Bool := (hexDigit? c).isSome

def hexValue (cs : List Char) : Nat := cs.foldl (fun n c => 16 * n + (hexDigit? c).getD 0) 0

def scaled (n : Nat) (e : Int) : Float :=
  if n = 0 then 0
  else if 0 ≤ e then if 2000 < e then 1.0 / 0.0 else Float.ofNat (n <<< e.toNat)
  else
    let drop := (Nat.log2 n : Int) - 63
    if 0 < drop then
      let kept := n >>> drop.toNat
      let sticky := if kept <<< drop.toNat = n then 0 else 1
      (Float.ofNat (kept ||| sticky)).scaleB (e + drop)
    else (Float.ofNat n).scaleB e

def binaryExponent? : List Char → Option Int
  | [] => some 0
  | c :: cs =>
    if c = 'p' || c = 'P' then
      match cs with
      | '-' :: ds => (Text.digits? ds).map fun n => -(n : Int)
      | '+' :: ds => (Text.digits? ds).map Int.ofNat
      | ds => (Text.digits? ds).map Int.ofNat
    else none

/-- A hexadecimal numeral after its `0x`. Without point and exponent it is an integer, of which
the low 64 bits count. -/
def hex? (cs : List Char) : Option Number :=
  let whole := cs.takeWhile isHexDigit
  match cs.dropWhile isHexDigit with
  | [] => if whole.isEmpty then none else some (.int (Int64.ofInt (hexValue whole)))
  | rest =>
    let (fraction, rest) := match rest with
      | '.' :: r => (r.takeWhile isHexDigit, r.dropWhile isHexDigit)
      | r => ([], r)
    let ds := whole ++ fraction
    if ds.isEmpty then none
    else (binaryExponent? rest).map fun e =>
      .float (scaled (hexValue ds) (max (-100000) (min 100000 e) - 4 * fraction.length))

/-- A decimal numeral: an integer if it has digits only and fits, otherwise a floating-point
number. -/
def decimal? (negative : Bool) (cs : List Char) : Option Number :=
  match Text.digits? cs with
  | some n =>
    if n < Text.int64Bound || (negative && n = Text.int64Bound) then some (.int (Int64.ofInt n))
    else (Decimal.magnitude? cs).map .float
  | none => (Decimal.magnitude? cs).map .float

def negate : Number → Number
  | int n => int (-n)
  | float x => float (-x)

def unsigned? (negative : Bool) : List Char → Option Number
  | '0' :: x :: cs =>
    if x = 'x' || x = 'X' then hex? cs else decimal? negative ('0' :: x :: cs)
  | cs => decimal? negative cs

def parse? (cs : List Char) : Option Number :=
  let cs := ((cs.dropWhile isSpace).reverse.dropWhile isSpace).reverse
  match cs with
  | '-' :: r => (unsigned? true r).map negate
  | '+' :: r => unsigned? false r
  | r => unsigned? false r

end Number

end Rulebook.Script
