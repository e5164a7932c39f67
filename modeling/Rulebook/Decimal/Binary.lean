namespace Rulebook.Decimal

/-- The magnitude `m * 2^q` of a finite number. `narrow` marks a power of two, whose distance to
the number below is half of that to the number above. -/
structure Binary where
  m : Nat
  q : Int
  narrow : Bool

/-- The least significand of a number that is not too small for a full one. -/
def leastFull : Nat := 0x10000000000000

def Binary.ofBits (bits : UInt64) : Binary :=
  let e := ((bits >>> 52) &&& 0x7ff).toNat
  let f := (bits &&& 0xfffffffffffff).toNat
  if e = 0 then ⟨f, -1074, false⟩ else ⟨f + leastFull, (e : Int) - 1075, f = 0 && 1 < e⟩

def Binary.ofFloat (x : Float) : Binary := .ofBits x.toBits

def isNegative (x : Float) : Bool := x.toBits >>> 63 = 1

def twoTo (k : Int) : Nat := Nat.pow 2 k.toNat

def tenTo (k : Int) : Nat := Nat.pow 10 k.toNat

def Binary.ratio (b : Binary) : Nat × Nat :=
  (b.m * twoTo b.q, twoTo (-b.q))

def decimalRatio (n : Nat) (k : Int) : Nat × Nat := (n * tenTo k, tenTo (-k))

/-- The least `k` such that the ratio is below `10^k`, for a positive ratio. -/
def scale (num den : Nat) : Int :=
  let guess : Int := ((Nat.log2 num : Int) - (Nat.log2 den : Int) - 1) * 30103 / 100000
  let below (k : Int) : Bool := num * tenTo (-k) < den * tenTo k
  if below guess then guess
  else if below (guess + 1) then guess + 1
  else if below (guess + 2) then guess + 2
  else guess + 3

structure Digits where
  digits : Nat
  exponent : Int
deriving Repr, DecidableEq

def Digits.zero : Digits := ⟨0, 0⟩

def Digits.strip (d : Digits) : Digits :=
  if d.digits = 0 then d else go (Nat.log2 d.digits) d
where
  go : Nat → Digits → Digits
  | 0, d => d
  | n + 1, d => if d.digits % 10 = 0 then go n ⟨d.digits / 10, d.exponent + 1⟩ else d

def Digits.leading (d : Digits) : Int := d.exponent + (toString d.digits).length - 1

end Rulebook.Decimal
