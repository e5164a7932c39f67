import Rulebook.Decimal.Binary

namespace Rulebook.Decimal

/-- The integer nearest to `num / den`; an exact tie goes to the even neighbour. -/
def roundDiv (num den : Nat) : Nat :=
  let q := num / den
  let twice := 2 * (num % den)
  if twice < den then q
  else if den < twice then q + 1
  else if q % 2 = 0 then q else q + 1

def Binary.significant (b : Binary) (count : Nat) : Digits :=
  if b.m = 0 then .zero
  else
    let (num, den) := b.ratio
    let e := scale num den - count
    ⟨roundDiv (num * tenTo (-e)) (den * tenTo e), e⟩

/-- The nearest number of `count` places after the point, as the integer of its digits. -/
def Binary.places (b : Binary) (count : Nat) : Nat :=
  let (num, den) := b.ratio
  roundDiv (num * tenTo count) den

end Rulebook.Decimal
