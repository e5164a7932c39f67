import Rulebook.Script.Sorting

namespace Rulebook.Script.Library

def valueAt (h : Heap) (ref : Nat) (n : Int64) : Value := (h.table ref).getInt n

def joined (t : Table) (sep : ByteArray) (i j : Int) : Nat → ByteArray → Attempt ByteArray
  | 0, out => .ok out
  | fuel + 1, out =>
    if j < i then .ok out
    else match (t.getInt (Int64.ofInt i)).toBytes? with
      | some s => joined t sep (i + 1) j fuel (if i = j then out ++ s else out ++ s ++ sep)
      | none =>
        Raised.error ("invalid value (at index " ++ toString i ++ ") in table for 'concat'")

def border (ref : Nat) : Action Nat := modifyGet (·.border ref)

def concat (c : Call) : Action (List Value) := do
  let r ← c.table 1
  let n ← border r
  let sep ← c.textOr 2 ByteArray.empty
  let i ← c.intOr 3 1
  let j ← c.intOr 4 (Int64.ofNat n)
  let h ← get
  let out ← joined (h.table r) sep i.toInt j.toInt ((j.toInt - i.toInt + 1).toNat) ByteArray.empty
  if h.bound < baseSize + 2 * out.size then throw (.value Raised.outOfMemory) else giveText out

def shiftUp (ref : Nat) (place : Nat) : Nat → Heap → Heap
  | 0, h => h
  | n + 1, h =>
    let v := valueAt h ref (Int64.ofNat (place + n))
    shiftUp ref place n (h.setInt ref (Int64.ofNat (place + n + 1)) v)

def insert (c : Call) : Action (List Value) := do
  let r ← c.table 1
  let n ← border r
  match c.count with
  | 2 =>
    modify (·.setInt r (Int64.ofNat (n + 1)) (c.get 2))
    return []
  | 3 =>
    let place ← c.int 2
    if place < 1 || (n : Int) + 1 < place.toInt then c.bad 2 "position out of bounds"
    else
      modify (shiftUp r place.toInt.toNat (n + 1 - place.toInt.toNat))
      modify (·.setInt r place (c.get 3))
      return []
  | _ => Raised.error "wrong number of arguments to 'insert'"

def shiftDown (ref : Nat) (place : Int64) : Nat → Heap → Heap
  | 0, h => h.setInt ref place .nil
  | n + 1, h => shiftDown ref (place + 1) n (h.setInt ref place (valueAt h ref (place + 1)))

def remove (c : Call) : Action (List Value) := do
  let r ← c.table 1
  let n ← border r
  let place ← c.intOr 2 (Int64.ofNat n)
  if place.toInt ≠ n && (place < 1 || (n : Int) + 1 < place.toInt) then
    c.bad 2 "position out of bounds"
  else
    let v := valueAt (← get) r place
    modify (shiftDown r place ((n : Int) - place.toInt).toNat)
    return [v]

/-- Copies items, in ascending or descending order. -/
def copy (source target : Nat) (i j : Int64) (step : Int64) : Nat → Heap → Heap
  | 0, h => h
  | n + 1, h =>
    copy source target (i + step) (j + step) step n (h.setInt target j (valueAt h source i))

def move (c : Call) : Action (List Value) := do
  let first ← c.int 2
  let last ← c.int 3
  let place ← c.int 4
  let source ← c.table 1
  let targetArg := if c.lacks 5 then 1 else 5
  let target ← c.table targetArg
  if first ≤ last then
    let n := last.toInt - first.toInt + 1
    if Text.int64Bound ≤ n then c.bad 3 "too many elements to move"
    else if Text.int64Bound - n < place.toInt then c.bad 4 "destination wrap around"
    else
      let up := last < place || place ≤ first || source != target
      modify <|
        if up then copy source target first place 1 n.toNat
        else copy source target last (place + Int64.ofInt (n - 1)) (-1) n.toNat
  return [c.get targetArg]

def packed (c : Call) : Table :=
  { Table.withRoom c.count 1 with items := c.args }.setText "n" (.ofNat c.count)

def maxResults : Nat := 999000

def unpacked (c : Call) : Action (List Value) := do
  let i ← c.intOr 2 1
  let n ← match c.get 1 with
    | .table r => border r
    | .str s => pure s.size
    | v =>
      if c.lacks 3 then Raised.error ("attempt to get length of a " ++ v.typeName ++ " value")
      else pure 0
  let j ← c.intOr 3 (Int64.ofNat n)
  if j < i then return []
  else
    let count := j.toInt - i.toInt + 1
    if maxResults ≤ count then Raised.error "too many results to unpack"
    else match c.get 1 with
      | .table r =>
        let h ← get
        return (List.range count.toNat).map fun k => valueAt h r (i + Int64.ofNat k)
      | .str _ => return List.replicate count.toNat .nil
      | v => Raised.error ("attempt to index a " ++ v.typeName ++ " value")

/-- The start of sorting the list of a call; none if it is sorted already. -/
def sorting (c : Call) : Action (Option Sorting) := do
  let r ← c.table 1
  let n ← border r
  if n ≤ 1 then return none
  else if 0x7fffffff ≤ n then c.bad 1 "array too big"
  else match c.get 2 with
    | .nil | .closure _ | .routine _ => return Sorting.enter r [(1, n)]
    | _ => c.mistyped 2 "function"

def table (r : TableRoutine) (c : Call) : Action (List Value) := do
  match r with
  | .concat => concat c
  | .insert => insert c
  | .move => move c
  | .pack => return [.table (← modifyGet (·.newTable (packed c)))]
  | .remove => remove c
  | .sort =>
    match ← sorting c with
    | none => return []
    | some s =>
      s.run (4 * s.last * s.last + 64)
      return []
  | .unpack => unpacked c

end Rulebook.Script.Library
