import Rulebook.Decimal.Binary

namespace Rulebook.Decimal

structure Notation where
  /-- the least exponent of the first digit that is written positionally -/
  lowest : Int
  /-- the greatest such exponent -/
  highest : Int
  /-- whole numbers written positionally end in `.0` -/
  wholeMark : Bool
  /-- the exponent has at least this many digits -/
  exponentWidth : Nat

def padLeft (width : Nat) (c : Char) (s : String) : String :=
  String.ofList (List.replicate (width - s.length) c) ++ s

/-- Digits with the point after the first `whole` of them. -/
def positional (digits : String) (leading : Int) (wholeMark : Bool) : String :=
  let n := digits.length
  if leading < 0 then
    "0." ++ String.ofList (List.replicate (-leading - 1).toNat '0') ++ digits
  else
    let whole := leading.toNat + 1
    if n ≤ whole then
      digits ++ String.ofList (List.replicate (whole - n) '0') ++ (if wholeMark then ".0" else "")
    else (digits.take whole).toString ++ "." ++ (digits.drop whole).toString

def exponentText (width : Nat) (e : Int) : String :=
  (if e < 0 then "e-" else "e+") ++ padLeft width '0' (toString e.natAbs)

def scientific (digits : String) (leading : Int) (width : Nat) : String :=
  let tail := (digits.drop 1).toString
  (digits.take 1).toString ++ (if tail.isEmpty then "" else "." ++ tail) ++
    exponentText width leading

def Notation.write (n : Notation) (negative : Bool) (d : Digits) : String :=
  let digits := toString d.digits
  let leading := if d.digits = 0 then 0 else d.leading
  (if negative then "-" else "") ++
    if n.lowest ≤ leading && leading ≤ n.highest then positional digits leading n.wholeMark
    else scientific digits leading n.exponentWidth

end Rulebook.Decimal
