import Rulebook.Script.Operation

namespace Rulebook.Script.Library

def pi : Float := 3.141592653589793
def huge : Float := 1 / 0

def whole (x : Float) : Value :=
  match Number.whole? x with
  | some n => .int n
  | none => .float x

def onFloat (f : Float → Float) (c : Call) : Attempt Value := do return .float (f (← c.float 1))

def extreme (better : Value → Value → Attempt Bool) (c : Call) : Attempt Value := do
  let first ← c.any 1
  c.args.toList.tail.foldlM (fun best v => do return if ← better v best then v else best) first

def remainderInt (c : Call) (m n : Int64) : Attempt Value :=
  if n = 0 then c.bad 2 "zero"
  else if n = -1 then .ok (.int 0)
  else .ok (.int (m % n))

def fmod (c : Call) : Attempt Value := do
  match c.get 1, c.get 2 with
  | .int m, .int n => remainderInt c m n
  | _, _ => return .float (Number.remainder (← c.float 1) (← c.float 2))

def logarithm (c : Call) : Attempt Value := do
  let x ← c.float 1
  if c.lacks 2 then return .float x.log
  else
    let b ← c.float 2
    return .float (if b == 2 then x.log2 else if b == 10 then x.log10 else x.log / b.log)

/-- The whole part, rounded toward zero, and the fraction. -/
def modf (c : Call) : Attempt (List Value) := do
  match c.get 1 with
  | .int n => return [.float n.toFloat, .float 0]
  | _ =>
    let x ← c.float 1
    let n := if x < 0 then x.ceil else x.floor
    return [.float n, .float (if x == n then 0 else x - n)]

/-- All bits below the highest that is set. -/
def smear (n : UInt64) : UInt64 :=
  let n := n ||| (n >>> 1)
  let n := n ||| (n >>> 2)
  let n := n ||| (n >>> 4)
  let n := n ||| (n >>> 8)
  let n := n ||| (n >>> 16)
  n ||| (n >>> 32)

/-- A random number up to `n`: numbers with as many bits are drawn until one is small enough. -/
def project (n mask x : UInt64) : Nat → Random → UInt64 × Random
  | 0, r => (0, r)
  | fuel + 1, r =>
    if x &&& mask ≤ n then (x &&& mask, r)
    else
      let (x, r) := r.next
      project n mask x fuel r

def random (c : Call) : Action (List Value) := do
  let (x, r) := (← get).random.next
  let between (i : Nat) (low high : Int64) : Action (List Value) := do
    if high < low then c.bad i "interval is empty"
    else
      let n := high.toUInt64 - low.toUInt64
      let (y, r) := project n (smear n) x 10000 r
      modify fun h => { h with random := r }
      return [.int (y + low.toUInt64).toInt64]
  match c.count with
  | 0 =>
    modify fun h => { h with random := r }
    return [.float ((x >>> 11).toFloat * (0.5 ^ (53 : Float)))]
  | 1 =>
    let high ← c.int 1
    if high = 0 then
      modify fun h => { h with random := r }
      return [.int x.toInt64]
    else between 1 1 high
  | 2 =>
    let low ← c.int 1
    let high ← c.int 2
    between 2 low high
  | _ => Raised.error "wrong number of arguments"

def randomSeed (c : Call) : Action (List Value) := do
  if c.count = 0 then
    modify fun h => { h with random := .ofSeed 0 0 }
    return [.int 0, .int 0]
  else
    let x ← c.number 1
    let low := match x.toInt? with
      | some n => n
      | none => x.toFloat.toBits.toInt64
    let high ← c.intOr 2 0
    modify fun h => { h with random := .ofSeed low.toUInt64 high.toUInt64 }
    return [.int low, .int high]

def fraction (c : Call) : Attempt (List Value) := do
  let x ← c.float 1
  if x.isNaN || x.isInf || x == 0 then return [.float x, .int 0]
  else
    let (m, e) := x.frExp
    return [.float m, .int (Int64.ofInt e)]

def absolute (c : Call) : Attempt Value := do
  match c.get 1 with
  | .int n => return .int (if n < 0 then -n else n)
  | _ => return .float (← c.float 1).abs

def rounded (f : Float → Float) (c : Call) : Attempt Value := do
  match c.get 1 with
  | .int n => return .int n
  | _ => return whole (f (← c.float 1))

def kindOf (c : Call) : Attempt Value := do
  match ← c.any 1 with
  | .int _ => return .text "integer"
  | .float _ => return .text "float"
  | _ => return .nil

def asInteger (c : Call) : Attempt Value := do
  match (← c.any 1).toInt? with
  | some n => return .int n
  | none => return .nil

def number (r : NumberRoutine) (c : Call) : Action (List Value) :=
  let one (a : Attempt Value) : Action (List Value) := do return [← a]
  match r with
  | .abs => one (absolute c)
  | .acos => one (onFloat Float.acos c)
  | .asin => one (onFloat Float.asin c)
  | .atan => one do return .float (Float.atan2 (← c.float 1) (← c.floatOr 2 1))
  | .ceil => one (rounded Float.ceil c)
  | .cos => one (onFloat Float.cos c)
  | .cosh => one (onFloat Float.cosh c)
  | .deg => one (onFloat (· * (180 / pi)) c)
  | .exp => one (onFloat Float.exp c)
  | .floor => one (rounded Float.floor c)
  | .fmod => one (fmod c)
  | .frexp => fraction c
  | .ldexp => one do return .float ((← c.float 1).scaleB (← c.int 2).toInt)
  | .log => one (logarithm c)
  | .log10 => one (onFloat Float.log10 c)
  | .max => one (extreme (fun a b => Operation.less b a) c)
  | .min => one (extreme Operation.less c)
  | .modf => modf c
  | .pow => one do return .float ((← c.float 1).pow (← c.float 2))
  | .rad => one (onFloat (· * (pi / 180)) c)
  | .random => random c
  | .randomseed => randomSeed c
  | .sin => one (onFloat Float.sin c)
  | .sinh => one (onFloat Float.sinh c)
  | .sqrt => one (onFloat Float.sqrt c)
  | .tan => one (onFloat Float.tan c)
  | .tanh => one (onFloat Float.tanh c)
  | .tointeger => one (asInteger c)
  | .type => one (kindOf c)
  | .ult => one do return .bool ((← c.int 1).toUInt64 < (← c.int 2).toUInt64)

end Rulebook.Script.Library
