import Rulebook.Decimal.Binary

namespace Rulebook.Decimal

/-- The interval of the reals that round to a number, in units of `1 / den`; its ends belong to it
when the number's significand is even. -/
structure Interval where
  low : Nat
  value : Nat
  high : Nat
  den : Nat
  closed : Bool

def Binary.interval (b : Binary) : Interval :=
  let unit := twoTo b.q
  let value := 4 * b.m * unit
  ⟨value - (if b.narrow then unit else 2 * unit), value, value + 2 * unit,
    4 * twoTo (-b.q), b.m % 2 = 0⟩

def Interval.contains (i : Interval) (n : Nat) (k : Int) : Bool :=
  let (num, den) := decimalRatio n k
  let x := num * i.den
  let lo := i.low * den
  let hi := i.high * den
  if i.closed then lo ≤ x && x ≤ hi else lo < x && x < hi

/-- The better of the two neighbours of the value on the grid `10^k`, if one lies in the interval.
Of two equally near ones the even one is taken. -/
def Interval.onGrid? (i : Interval) (k : Int) : Option Nat :=
  let (num, den) := (i.value * tenTo (-k), i.den * tenTo k)
  let c := num / den
  match i.contains c k, i.contains (c + 1) k with
  | true, false => some c
  | false, true => some (c + 1)
  | true, true =>
    let twice := 2 * num
    let mid := (2 * c + 1) * den
    if twice < mid || (twice = mid && c % 2 = 0) then some c else some (c + 1)
  | false, false => none

def Interval.search (i : Interval) (k : Int) : Nat → Nat → Option Digits
  | 0, _ => none
  | left + 1, n =>
    match i.onGrid? (k - n) with
    | some c => some ⟨c, k - n⟩
    | none => i.search k left (n + 1)

/-- The fewest digits that read back as the magnitude of a finite number, and of those the nearest
to it. -/
def shortest (x : Float) : Digits :=
  let b := Binary.ofFloat x
  if b.m = 0 then .zero
  else
    let i := b.interval
    let k := scale i.value i.den
    match i.search k 17 1 with
    | some d => d.strip
    | none => (Digits.mk (b.m * Nat.pow 5 (-b.q).toNat * twoTo b.q) (min b.q 0)).strip

end Rulebook.Decimal
