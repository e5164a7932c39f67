import Rulebook.Script.Argument
import Rulebook.Script.Token

namespace Rulebook.Script.Library

def isTail (b : UInt8) : Bool := b &&& 0xc0 = 0x80

def byteAt (s : ByteArray) (i : Nat) : UInt8 := (s[i]?).getD 0

def leastCodes : List Nat := [0x80, 0x800, 0x10000, 0x200000, 0x4000000]

def decode? (strict : Bool) (s : ByteArray) (i : Nat) : Option (Nat × Nat) :=
  let c := byteAt s i
  let build (count : Nat) (lead : Nat) : Option (Nat × Nat) :=
    let tail := (List.range count).map fun k => byteAt s (i + 1 + k)
    if tail.all isTail then
      let n := tail.foldl (fun n b => n * 64 + (b &&& 0x3f).toNat) lead
      if n < leastCodes.getD (count - 1) 0 then none
      else if strict && (0x10ffff < n || (0xd800 ≤ n && n ≤ 0xdfff)) then none
      else some (n, count + 1)
    else none
  if c < 0x80 then some (c.toNat, 1)
  else if c < 0xc0 then none
  else if c < 0xe0 then build 1 (c &&& 0x1f).toNat
  else if c < 0xf0 then build 2 (c &&& 0x0f).toNat
  else if c < 0xf8 then build 3 (c &&& 0x07).toNat
  else if c < 0xfc then build 4 (c &&& 0x03).toNat
  else if c < 0xfe then build 5 (c &&& 0x01).toNat
  else none

/-- A place counted from the end if negative; zero stands for none. -/
def codePlace (n : Int64) (length : Nat) : Int :=
  if 0 ≤ n then n.toInt else if length < -n.toInt then 0 else length + n.toInt + 1

def codeChar (c : Call) : Attempt ByteArray := do
  let parts ← (List.range c.count).mapM fun i => do
    let n := (← c.int (i + 1)).toUInt64.toNat
    if 0x7fffffff < n then c.bad (i + 1) "value out of range" else .ok (Token.codeBytes n)
  return ⟨parts.flatten.toArray⟩

def codesBetween (strict : Bool) (s : ByteArray) (last : Nat) :
    Nat → Nat → List Nat → Attempt (List Nat)
  | 0, _, acc => .ok acc.reverse
  | fuel + 1, i, acc =>
    if last ≤ i then .ok acc.reverse
    else match decode? strict s i with
      | some (n, k) => codesBetween strict s last fuel (i + k) (n :: acc)
      | none => Raised.error "invalid UTF-8 code"

def codepoint (c : Call) : Attempt (List Value) := do
  let s ← c.text 1
  let i ← c.intOr 2 1
  let first := codePlace i s.size
  let last := codePlace (← c.intOr 3 (Int64.ofInt first)) s.size
  if first < 1 then c.bad 2 "out of bounds"
  else if s.size < last then c.bad 3 "out of bounds"
  else
    let codes ← codesBetween (!(c.get 4).holds) s last.toNat (s.size + 1) (first.toNat - 1) []
    return codes.map .ofNat

def codeLen (c : Call) : Attempt (List Value) := do
  let s ← c.text 1
  let first := codePlace (← c.intOr 2 1) s.size
  let last := codePlace (← c.intOr 3 (-1)) s.size
  if first < 1 || (s.size : Int) + 1 < first then c.bad 2 "initial position out of bounds"
  else if (s.size : Int) < last then c.bad 3 "final position out of bounds"
  else
    let strict := !(c.get 4).holds
    let rec count : Nat → Nat → Nat → List Value
      | 0, _, n => [.ofNat n]
      | fuel + 1, i, n =>
        if last ≤ i then [.ofNat n]
        else match decode? strict s i with
          | some (_, k) => count fuel (i + k) (n + 1)
          | none => [.nil, .ofNat (i + 1)]
    return count (s.size + 1) (first.toNat - 1) 0

/-- Goes over code points, back or forth, as long as there are places to go over. -/
def stepBack (s : ByteArray) : Nat → Nat → Nat
  | 0, i => i
  | fuel + 1, i => if 0 < i && isTail (byteAt s i) then stepBack s fuel (i - 1) else i

def stepOn (s : ByteArray) : Nat → Nat → Nat
  | 0, i => i
  | fuel + 1, i => if i < s.size && isTail (byteAt s i) then stepOn s fuel (i + 1) else i

def back (s : ByteArray) : Nat → Nat → Option Nat
  | 0, i => some i
  | n + 1, i => if i = 0 then none else back s n (stepBack s s.size (i - 1))

def forth (s : ByteArray) : Nat → Nat → Option Nat
  | 0, i => some i
  | n + 1, i => if s.size ≤ i then none else forth s n (stepOn s s.size (i + 1))

def offset (c : Call) : Attempt Value := do
  let s ← c.text 1
  let n ← c.int 2
  let i := codePlace (← c.intOr 3 (if 0 ≤ n then 1 else Int64.ofNat (s.size + 1))) s.size
  if i < 1 || (s.size : Int) + 1 < i then c.bad 3 "position out of bounds"
  else
    let i := i.toNat - 1
    let found (r : Option Nat) : Value :=
      match r with
      | some i => .ofNat (i + 1)
      | none => .nil
    if n = 0 then return .ofNat (stepBack s s.size i + 1)
    else if isTail (byteAt s i) then Raised.error "initial position is a continuation byte"
    else if n < 0 then return found (back s (min n.toInt.natAbs (s.size + 1)) i)
    else return found (forth s (min (n.toInt.toNat - 1) (s.size + 1)) i)

/-- The next step of a walk over code points, given the place of the last. -/
def nextCode (lax : Bool) (c : Call) : Attempt (List Value) := do
  let s ← c.text 1
  let n := (← c.int 2).toUInt64.toNat
  let i := if n < s.size then stepOn s s.size n else n
  if s.size ≤ i then return []
  else match decode? (!lax) s i with
    | some (code, k) =>
      if isTail (byteAt s (i + k)) then Raised.error "invalid UTF-8 code"
      else return [.ofNat (i + 1), .ofNat code]
    | none => Raised.error "invalid UTF-8 code"

def codes (c : Call) : Attempt (List Value) := do
  let s ← c.text 1
  if isTail (byteAt s 0) then c.bad 1 "invalid UTF-8 code"
  else return [.routine (.nextCode (c.get 2).holds), .str s, .int 0]

def code (r : CodeRoutine) (c : Call) : Action (List Value) := do
  match r with
  | .char => giveText (← codeChar c)
  | .codepoint => codepoint c
  | .codes => codes c
  | .len => codeLen c
  | .offset => return [← offset c]

def charPattern : ByteArray :=
  ⟨#[0x5b, 0x00, 0x2d, 0x7f, 0xc2, 0x2d, 0xfd, 0x5d, 0x5b, 0x80, 0x2d, 0xbf, 0x5d, 0x2a]⟩

end Rulebook.Script.Library
