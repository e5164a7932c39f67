import Rulebook.Script.Format
import Rulebook.Script.Packing
import Rulebook.Script.Substitution

namespace Rulebook.Script.Library

def firstPlace (n : Int64) (length : Nat) : Nat := (max 1 (relative n length)).toNat

def lastPlace (n : Int64) (length : Nat) : Nat := (min (length : Int) (relative n length)).toNat

def part (s : ByteArray) (first last : Nat) : ByteArray := s.extract (first - 1) last

def sub (c : Call) : Attempt ByteArray := do
  let s ← c.text 1
  let i ← c.int 2
  let j ← c.intOr 3 (-1)
  return part s (firstPlace i s.size) (lastPlace j s.size)

def byteValues (c : Call) : Attempt (List Value) := do
  let s ← c.text 1
  let i ← c.intOr 2 1
  let j ← c.intOr 3 i
  return (part s (firstPlace i s.size) (lastPlace j s.size)).toList.map fun b => .ofNat b.toNat

def chars (c : Call) : Attempt ByteArray := do
  let bs ← (List.range c.count).mapM fun i => do
    let n ← c.int (i + 1)
    if n < 0 || 255 < n then c.bad (i + 1) "value out of range" else .ok n.toUInt64.toUInt8
  return ⟨bs.toArray⟩

def copies (s sep : ByteArray) : Nat → ByteArray → ByteArray
  | 0, out => out
  | n + 1, out => copies s sep n (if n = 0 then out ++ s else out ++ s ++ sep)

def isBlankPiece (c : Call) (i : Nat) : Bool :=
  match c.get i with
  | .nil => true
  | .str s => s.isEmpty
  | _ => false

/-- Nothing repeated is nothing, however often. -/
def rep (c : Call) : Action (List Value) := do
  if isBlankPiece c 1 && isBlankPiece c 3 then giveText ByteArray.empty
  else
    let s ← c.text 1
    let n ← c.int 2
    let sep ← c.textOr 3 ByteArray.empty
    if n ≤ 0 then giveText ByteArray.empty
    else
      let n := n.toInt.toNat
      let total := n * s.size + (n - 1) * sep.size
      if Text.int64Bound - 1 ≤ total then Raised.error "resulting string too large"
      else if (← get).bound < baseSize + 2 * total then throw (.value Raised.outOfMemory)
      else giveText (copies s sep n ByteArray.empty)

/-- Refuses costly patterns. A subject that is a number counts as 32 bytes. -/
def checkCost (c : Call) : Attempt Unit :=
  match c.get 2 with
  | .str p =>
    if PatternCost.maxLength < p.size then
      Raised.signal (.refused (.longPattern PatternCost.maxLength))
    else
      let length := match c.get 1 with
        | .str s => s.size
        | .int _ | .float _ => 32
        | _ => 0
      if PatternCost.maxWork < PatternCost.work p.toList length then
        Raised.signal (.refused (.costlyPattern length))
      else .ok ()
  | _ => .ok ()

def foundValues (m : Pattern.Found) (s : ByteArray) : Attempt (List Value) := do
  return (← inPattern (m.values s)).map captured

def indexOf? (s t : ByteArray) (i : Nat) : Nat → Option Nat
  | 0 => none
  | fuel + 1 =>
    if s.size < i + t.size then none
    else if s.extract i (i + t.size) == t then some i else indexOf? s t (i + 1) fuel

def find (c : Call) : Attempt (List Value) := do
  let s ← c.text 1
  let p ← c.text 2
  let i := firstPlace (← c.intOr 3 1) s.size - 1
  if s.size < i then return [.nil]
  else if (c.get 4).holds || !p.toList.any Pattern.isSpecial then
    match indexOf? s p i (s.size + 1) with
    | some j => return [.ofNat (j + 1), .ofNat (j + p.size)]
    | none => return [.nil]
  else
    match ← inPattern (Pattern.search s (Pattern.anchored p.toList) i (s.size + 1)) with
    | some m =>
      let captures ← inPattern (m.all s)
      return .ofNat (m.start + 1) :: .ofNat m.stop :: captures.map captured
    | none => return [.nil]

def matching (c : Call) : Attempt (List Value) := do
  let s ← c.text 1
  let p ← c.text 2
  let i := firstPlace (← c.intOr 3 1) s.size - 1
  if s.size < i then return [.nil]
  else
    match ← inPattern (Pattern.search s (Pattern.anchored p.toList) i (s.size + 1)) with
    | some m => foundValues m s
    | none => return [.nil]

/-- A walk over matches, in which a caret is no anchor. -/
def walk (c : Call) : Attempt Pattern.Walk := do
  let s ← c.text 1
  let p ← c.text 2
  let i := firstPlace (← c.intOr 3 1) s.size - 1
  return ⟨s, ⟨false, Pattern.items p.toList⟩, i, none⟩

def walkStep (w : Pattern.Walk) : Attempt (List Value × Pattern.Walk) := do
  match ← inPattern (w.next (w.subject.size + 2)) with
  | (none, w) => return ([.nil], w)
  | (some m, w) => return (← foundValues m w.subject, w)

def substitution (c : Call) : Attempt Substitution := do
  let s ← c.text 1
  let p ← c.text 2
  match c.get 3 with
  | .int _ | .float _ | .str _ | .table _ | .closure _ | .routine _ =>
    let most ← c.intOr 4 (Int64.ofNat (s.size + 1))
    return ⟨⟨s, Pattern.anchored p.toList, 0, none⟩, c.get 3, most.toInt, 0, ByteArray.empty,
      false⟩
  | _ => c.mistyped 3 "string/function/table"

def isGuarded : TextRoutine → Bool
  | .find | .captures | .gmatch | .gsub | .rep => true
  | _ => false

def guardCall (r : TextRoutine) (late : Bool) (c : Call) : Attempt Unit :=
  if !isGuarded r then .ok ()
  else if late then Raised.signal .timedOut
  else match r with
    | .rep => .ok ()
    | .find => if (c.get 4).holds then .ok () else checkCost c
    | _ => checkCost c

/-- A message of a guarded routine is a signal. -/
def asSignal (r : TextRoutine) : Raised → Raised
  | .message s => if isGuarded r then .value (.signal (.failed s)) else .message s
  | e => e

def text (r : TextRoutine) (c : Call) : Action (List Value) := do
  match r with
  | .byte => byteValues c
  | .char => giveText (← chars c)
  | .find => find c
  | .format => giveText (← Format.format c)
  | .gmatch => return [← modifyGet (·.newClosure (.walk (← walk c)))]
  | .gsub =>
    let s ← substitution c
    let s ← s.run (← get) (s.walk.subject.size + 2)
    modifyGet s.result
  | .len => return [.ofNat (← c.text 1).size]
  | .lower => giveText ⟨(← c.text 1).data.map Pattern.toLower⟩
  | .captures => matching c
  | .pack => giveText (← Packing.pack c)
  | .packsize => return [.ofNat (← Packing.packsize c)]
  | .rep => rep c
  | .reverse => giveText ⟨(← c.text 1).data.reverse⟩
  | .sub => giveText (← sub c)
  | .unpack => Packing.unpack c
  | .upper => giveText ⟨(← c.text 1).data.map Pattern.toUpper⟩

end Rulebook.Script.Library
