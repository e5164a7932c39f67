import Rulebook.Script.Value
import Std.Data.HashMap

namespace Rulebook.Script

/-- Values at the integers from one up are held in a list of items as long as more than half of its
places are taken; all other members are nodes, in the order in which they came. A member whose value
is `nil` counts as absent. -/
structure Table where
  items : Array Value
  nodes : Array (Key × Value)
  /-- where the node of a key is -/
  places : Std.HashMap Key Nat
  /-- how many nodes there may be before the table is laid out anew -/
  room : Nat
  /-- the place in the items at which the search for a border starts -/
  hint : Nat
  /-- it is a list even when it is empty -/
  isList : Bool

namespace Table

def empty : Table := ⟨#[], #[], {}, 0, 0, false⟩

instance : Inhabited Table := ⟨empty⟩

/-- The least power of two that is at least `n`; none is needed for nothing. -/
def roomFor (n : Nat) : Nat :=
  if n = 0 then 0 else Nat.pow 2 (if n = 1 then 0 else (n - 1).log2 + 1)

def withRoom (items nodes : Nat) : Table :=
  ⟨Array.replicate items .nil, #[], {}, roomFor nodes, items, false⟩

def item? (t : Table) (n : Int64) : Option Nat :=
  if 1 ≤ n ∧ n.toInt ≤ t.items.size then some (n.toInt.toNat - 1) else none

def node (t : Table) (k : Key) : Value :=
  match t.places[k]? with
  | some i => ((t.nodes[i]?).map Prod.snd).getD .nil
  | none => .nil

def getKey (t : Table) (k : Key) : Value :=
  match k with
  | .int n =>
    match t.item? n with
    | some i => t.items.getD i .nil
    | none => t.node k
  | _ => t.node k

def get (t : Table) (k : Value) : Value :=
  match k.key? with
  | some k => t.getKey k
  | none => .nil

def getInt (t : Table) (n : Int64) : Value := t.getKey (.int n)

def slice (n : Nat) : Nat := if n ≤ 1 then 0 else (n - 1).log2 + 1

def count (slices : Array Nat) (n : Nat) : Array Nat := slices.modify (slice n) (· + 1)

/-- The greatest power of two more than half of whose places are taken, with the number of members
below it. -/
def itemRoom (slices : Array Nat) (total : Nat) : Nat × Nat :=
  let rec go : Nat → Nat → Nat → Nat → Nat × Nat → Nat × Nat
    | 0, _, _, _, best => best
    | fuel + 1, i, power, below, best =>
      if power / 2 < total then
        let below := below + slices.getD i 0
        go fuel (i + 1) (2 * power) below (if power / 2 < below then (power, below) else best)
      else best
  go 32 0 1 0 (0, 0)

def countItems (items : Array Value) (slices : Array Nat) : Array Nat × Nat :=
  let (slices, n, _) := items.foldl (fun (slices, n, i) v =>
    if v.isNil then (slices, n, i + 1) else (count slices (i + 1), n + 1, i + 1)) (slices, 0, 0)
  (slices, n)

def positive? : Key → Option Nat
  | .int n => if 1 ≤ n ∧ n.toInt ≤ 0x80000000 then some n.toInt.toNat else none
  | _ => none

def place (t : Table) (k : Key) (v : Value) : Table :=
  let asNode (t : Table) : Table :=
    match t.places[k]? with
    | some i => { t with nodes := t.nodes.setIfInBounds i (k, v) }
    | none =>
      let n := t.nodes.size
      { t with nodes := t.nodes.push (k, v), places := t.places.insert k n }
  match k with
  | .int n =>
    match t.item? n with
    | some i => { t with items := t.items.setIfInBounds i v }
    | none => asNode t
  | _ => asNode t

def resize (t : Table) (items nodes : Nat) : Table :=
  let kept := if items < t.items.size then t.items.extract 0 items
    else t.items ++ Array.replicate (items - t.items.size) .nil
  let dropped := t.items.extract items t.items.size
  let fresh : Table := ⟨kept, #[], {}, roomFor nodes, items, t.isList⟩
  let (fresh, _) := dropped.foldl (fun (t, n) v =>
    (if v.isNil then t else t.place (.int (Int64.ofNat n)) v, n + 1)) (fresh, items + 1)
  t.nodes.foldl (fun t (k, v) => if v.isNil then t else t.place k v) fresh

def rehash (t : Table) (k : Key) : Table :=
  let (slices, inItems) := countItems t.items (Array.replicate 33 0)
  let (slices, ints, total) := t.nodes.foldl (fun (slices, ints, total) (k, v) =>
    if v.isNil then (slices, ints, total)
    else match positive? k with
      | some n => (count slices n, ints + 1, total + 1)
      | none => (slices, ints, total + 1)) (slices, inItems, inItems)
  let (slices, ints) := match positive? k with
    | some n => (count slices n, ints + 1)
    | none => (slices, ints)
  let (items, below) := itemRoom slices ints
  t.resize items (total + 1 - below)

def setKey (t : Table) (k : Key) (v : Value) : Table :=
  let known := match k with
    | .int n => (t.item? n).isSome || t.places.contains k
    | _ => t.places.contains k
  if known then t.place k v
  else if v.isNil then t
  else if t.nodes.size < t.room then t.place k v
  else (t.rehash k).place k v

def setInt (t : Table) (n : Int64) (v : Value) : Table := t.setKey (.int n) v

def setText (t : Table) (name : String) (v : Value) : Table := t.setKey (.str (bytes name)) v

/-- A border among the items: a place before `high` that is taken while the next is free. -/
def itemBorder (items : Array Value) (low high : Nat) : Nat :=
  let rec go : Nat → Nat → Nat → Nat
    | 0, low, _ => low
    | fuel + 1, low, high =>
      if high - low ≤ 1 then low
      else
        let middle := (low + high) / 2
        if (items.getD (middle - 1) .nil).isNil then go fuel low middle else go fuel middle high
  go 64 low high

/-- A border among the nodes, past `n` items all of which may be taken. -/
def nodeBorder (t : Table) (n : Nat) : Nat :=
  let absent (i : Nat) : Bool := (t.getInt (Int64.ofNat i)).isNil
  let rec between : Nat → Nat → Nat → Nat
    | 0, low, _ => low
    | fuel + 1, low, high =>
      if high - low ≤ 1 then low
      else
        let middle := (low + high) / 2
        if absent middle then between fuel low middle else between fuel middle high
  let rec double : Nat → Nat → Nat → Nat
    | 0, low, _ => low
    | fuel + 1, low, high =>
      if absent high then between 64 low high
      else if 0x4000000000000000 < high then high
      else double fuel high (2 * high)
  double 64 n (if n = 0 then 1 else 2 * n)

def isPowerOfTwo (n : Nat) : Bool := n != 0 && Nat.pow 2 n.log2 == n

/-- A border of the table: a place that is taken, or zero, while the next one is free. A table
with gaps has several; which one is found depends on the hint, and moves it. -/
def border (t : Table) : Nat × Table :=
  let free (i : Nat) : Bool := (t.items.getD i .nil).isNil
  let size := t.items.size
  let limit := t.hint
  if 0 < limit && free (limit - 1) then
    if 2 ≤ limit && !free (limit - 2) then
      let movable := isPowerOfTwo size && size / 2 < limit - 1
      (limit - 1, if movable then { t with hint := limit - 1 } else t)
    else
      let b := itemBorder t.items 0 limit
      (b, if isPowerOfTwo size && size / 2 < b then { t with hint := b } else t)
  else if limit < size && free limit then (limit, t)
  else if limit < size && free (size - 1) then
    let b := itemBorder t.items limit size
    (b, { t with hint := b })
  else if t.room = 0 || (t.getInt (Int64.ofNat (size + 1))).isNil then (size, t)
  else (t.nodeBorder size, t)

/-- The first member at or after a place in the order of a walk. -/
def after (t : Table) (start : Nat) : Option (Value × Value) :=
  let rec items : Nat → Nat → Option (Value × Value)
    | 0, _ => none
    | fuel + 1, i =>
      match t.items[i]? with
      | none => none
      | some .nil => items fuel (i + 1)
      | some v => some (.ofNat (i + 1), v)
  let rec nodes : Nat → Nat → Option (Value × Value)
    | 0, _ => none
    | fuel + 1, i =>
      match t.nodes[i]? with
      | none => none
      | some (_, .nil) => nodes fuel (i + 1)
      | some (k, v) => some (k.value, v)
  if start < t.items.size then (items t.items.size start).or (nodes t.nodes.size 0)
  else nodes t.nodes.size (start - t.items.size)

def position? (t : Table) (k : Key) : Option Nat :=
  let asNode := (t.places[k]?).map (t.items.size + ·)
  match k with
  | .int n => (t.item? n).or asNode
  | _ => asNode

/-- The member after a given key, `nil` for the first; none at the end. The key must be known. -/
def next? (t : Table) (k : Value) : Option (Option (Value × Value)) :=
  match k with
  | .nil => some (t.after 0)
  | _ => (k.key?.bind t.position?).map fun i => t.after (i + 1)

def members (t : Table) : List (Value × Value) :=
  let (items, _) := t.items.foldl (fun (ms, n) v =>
    (if v.isNil then ms else (Value.ofNat n, v) :: ms, n + 1)) ([], 1)
  items.reverse ++ (t.nodes.toList.filter fun m => !m.2.isNil).map fun m => (m.1.value, m.2)

def sequence (t : Table) : List Value :=
  let rec go : Nat → Nat → List Value
    | 0, _ => []
    | fuel + 1, n =>
      match t.getInt (Int64.ofNat n) with
      | .nil => []
      | v => v :: go fuel (n + 1)
  go (t.items.size + t.nodes.size) 1

end Table

end Rulebook.Script
