import Rulebook.Text.Blank

namespace Rulebook.Decimal

/-- `n * 10^e` rounded to nearest. `size` bounds the number of digits of `n`. -/
def nearest (n : Nat) (e : Int) (size : Nat) : Float :=
  if n = 0 then 0
  else if 400 < e then 1 / 0
  else if e < -(400 + (size : Int)) then 0
  else if 0 ≤ e then Float.ofScientific n false e.toNat
  else Float.ofScientific n true (-e).toNat

def digitsValue (cs : List Char) : Nat :=
  cs.foldl (fun n c => 10 * n + (c.toNat - '0'.toNat)) 0

/-- An exponent part, sign included; an empty text stands for the exponent zero. -/
def exponentOf? : List Char → Option Int
  | [] => some 0
  | c :: cs =>
    if c = 'e' || c = 'E' then
      match cs with
      | '-' :: ds => (Text.digits? ds).map fun n => -(n : Int)
      | '+' :: ds => (Text.digits? ds).map Int.ofNat
      | ds => (Text.digits? ds).map Int.ofNat
    else none

def magnitude? (cs : List Char) : Option Float :=
  let whole := cs.takeWhile Char.isDigit
  let rest := cs.dropWhile Char.isDigit
  let (fraction, rest) := match rest with
    | '.' :: r => (r.takeWhile Char.isDigit, r.dropWhile Char.isDigit)
    | r => ([], r)
  let ds := whole ++ fraction
  if ds.isEmpty then none
  else (exponentOf? rest).map fun e => nearest (digitsValue ds) (e - fraction.length) ds.length

end Rulebook.Decimal
