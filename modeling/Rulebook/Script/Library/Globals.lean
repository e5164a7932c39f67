import Rulebook.Script.Library.Rules

namespace Rulebook.Script.Library

def select (c : Call) : Attempt (List Value) := do
  let rest := c.args.toList.tail
  match c.get 1 with
  | .str s =>
    if s == bytes "#" then return [.ofNat rest.length]
  | _ => pure ()
  let n := (← c.int 1).toInt
  let n := if n < 0 then c.count + n else min n c.count
  if n < 1 then c.bad 1 "index out of range" else return rest.drop (n.toNat - 1)

def digitValue (ch : Char) : Nat :=
  if ch.isDigit then ch.toNat - 48 else ch.toUpper.toNat - 55

def inBase? (base : Nat) (cs : List Char) : Option Int64 :=
  let cs := ((cs.dropWhile Number.isSpace).reverse.dropWhile Number.isSpace).reverse
  let (negative, cs) := match cs with
    | '-' :: r => (true, r)
    | '+' :: r => (false, r)
    | r => (false, r)
  if cs.isEmpty || !cs.all (fun ch => ch.isAlphanum && digitValue ch < base) then none
  else
    let n := Int64.ofNat (cs.foldl (fun n ch => n * base + digitValue ch) 0)
    some (if negative then -n else n)

def tonumber (c : Call) : Attempt Value := do
  if c.lacks 2 then
    match (← c.any 1).toNumber? with
    | some n => return .number n
    | none => return .nil
  else
    let base ← c.int 2
    match c.get 1 with
    | .str s =>
      if base < 2 || 36 < base then c.bad 2 "base out of range"
      else match inBase? base.toInt.toNat (Source.byteChars s) with
        | some n => return .int n
        | none => return .nil
    | _ => c.mistyped 1 "string"

def next (c : Call) (h : Heap) : Attempt (List Value) := do
  let r ← c.table 1
  match (h.table r).next? (c.get 2) with
  | some (some (k, v)) => return [k, v]
  | some none => return [.nil]
  | none => Raised.error "invalid key to 'next'"

def nextItem (c : Call) (h : Heap) : Attempt (List Value) := do
  let n := (← c.int 2) + 1
  match c.get 1 with
  | .table r =>
    match (h.table r).getInt n with
    | .nil => return [.nil]
    | v => return [.int n, v]
  | .str _ => return [.nil]
  | v => Raised.error ("attempt to index a " ++ v.typeName ++ " value")

/-- A condition that holds, with what follows it; otherwise the error that follows it. -/
def assert (c : Call) : Attempt (List Value) := do
  if (c.get 1).holds then return c.args.toList
  else
    let _ ← c.any 1
    .error (.value ((c.get? 2).getD (.text "assertion failed!")))

def require (c : Call) : Attempt (List Value) := do
  Raised.signal (.refused (.moduleRequest (← textArgument c 1)))

def warn (c : Call) : Attempt (List Value) := do
  let _ ← c.text 1
  for i in List.range c.count do
    let _ ← c.text (i + 1)
  return []

def global (r : Global) (c : Call) : Action (List Value) := do
  match r with
  | .assert => assert c
  | .ipairs => return [.routine .nextItem, ← c.any 1, .int 0]
  | .next => next c (← get)
  | .pairs => return [.routine (.global .next), ← c.any 1, .nil]
  | .require => require c
  | .select => select c
  | .tonumber => return [← tonumber c]
  | .tostring => giveText (← c.any 1).display
  | .type => return [.text (← c.any 1).typeName]
  | .warn => warn c
  | .error | .pcall | .xpcall => return []

end Rulebook.Script.Library
