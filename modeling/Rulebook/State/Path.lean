import Rulebook.Json.Value
import Rulebook.Text.Blank

namespace Rulebook.State

inductive PathFault where
  | empty
  | emptySegment (path : String)
  | wholeRoot (path : String)
  | missingSegment (segment : String)
  | notContainer (segment : String)
  | missingKey (key : String)
  | outOfBounds (index length : Nat)
  | notNumber (found : String)
  | notList (found : String)
  | valueNotFound
  | overflow
deriving DecidableEq, Repr

def PathFault.message : PathFault → String
  | empty => "path is empty"
  | emptySegment p => "path '" ++ p ++ "' has an empty segment"
  | wholeRoot p => "effects cannot replace the whole root '" ++ p ++ "'"
  | missingSegment s => "intermediate segment '" ++ s ++ "' does not exist"
  | notContainer s => "'" ++ s ++ "' is not an object or list"
  | missingKey k => "key '" ++ k ++ "' does not exist"
  | outOfBounds i n =>
    "index " ++ toString i ++ " out of bounds for list of length " ++ toString n
  | notNumber found => "expected number, found " ++ found
  | notList found => "expected array, found " ++ found
  | valueNotFound => "value is not present in the list"
  | overflow => "numeric overflow"

/-- A root and the segments below it, of which there is at least one. -/
structure Path where
  root : String
  rest : List String
deriving DecidableEq, Repr

def Path.text (p : Path) : String := ".".intercalate (p.root :: p.rest)

def Path.parse (target : String) : Except PathFault Path :=
  if target.isEmpty then .error .empty
  else
    let segments := Text.split '.' target
    if segments.any Text.blank then .error (.emptySegment target)
    else match segments with
      | root :: s :: rest => .ok ⟨root, s :: rest⟩
      | _ => .error (.wholeRoot target)

/-- A segment as an index: decimal digits after an optional plus sign, within 64 bits. -/
def index? (segment : String) : Option Nat := Text.natBelow? Text.nat64Bound segment

def child? (segment : String) : Json → Option Json
  | .obj members => Fields.get? members segment
  | .arr items => (index? segment).bind (items[·]?)
  | _ => none

def get? : List String → Json → Option Json
  | [], v => some v
  | s :: ss, v => (child? s v).bind (get? ss)

inductive Operation where
  | set | add | remove | append
deriving DecidableEq, Repr

def Operation.name : Operation → String
  | set => "set"
  | add => "add"
  | remove => "remove"
  | append => "append"

def Operation.ofName? (s : String) : Option Operation :=
  [set, add, remove, append].find? (·.name == s)

def Operation.unsupported (s : String) : String :=
  "unsupported operation '" ++ s ++ "' (expected set, add, remove or append)"

/-- A leaf before and after an operation; null where there is none. -/
structure Change where
  previous : Json
  current : Json

/-- Equality for looking up members of lists and enumerations: two numbers are equal when their
floating-point values are. -/
def looselyEqual (a b : Json) : Bool :=
  match a.toFloat?, b.toFloat? with
  | some x, some y => x == y
  | _, _ => a.same b

def isInt64 (n : Int) : Bool := Json.int64Min ≤ n && n ≤ Json.int64Max

/-- The sum of two numbers: of two signed 64-bit integers the exact sum, otherwise a
floating-point number. -/
def sum (a b : Json) : Except PathFault Json :=
  match a.toFloat?, b.toFloat? with
  | none, _ => .error (.notNumber a.typeName)
  | some _, none => .error (.notNumber b.typeName)
  | some x, some y =>
    match a, b with
    | .int m, .int n =>
      if isInt64 m && isInt64 n then
        if isInt64 (m + n) then .ok (.int (m + n)) else .error .overflow
      else .ok (.float (x + y))
    | _, _ => if (x + y).isNaN || (x + y).isInf then .error .overflow else .ok (.float (x + y))

/-- A list without its first element that is loosely equal to a value. -/
def dropFirst? (value : Json) : List Json → Option (List Json)
  | [] => none
  | v :: vs => if looselyEqual v value then some vs else (dropFirst? value vs).map (v :: ·)

def isNull : Json → Bool
  | .null => true
  | _ => false

/-- An operation on a slot: what the slot holds then, and what the operation comes to. Without a
value the slot is a key that an object lacks. -/
def Operation.onSlot (key : String) (value : Json) :
    Operation → Option Json → Option Json × Except PathFault Change
  | set, slot => (some value, .ok ⟨slot.getD .null, value⟩)
  | append, none => (some (.arr [value]), .ok ⟨.null, .arr [value]⟩)
  | append, some slot =>
    match slot with
    | .arr items => (some (.arr (items ++ [value])), .ok ⟨slot, .arr (items ++ [value])⟩)
    | v => (some slot, .error (.notList v.typeName))
  | add, some slot =>
    match sum slot value with
    | .ok s => (some s, .ok ⟨slot, s⟩)
    | .error fault => (some slot, .error fault)
  | remove, some slot =>
    match slot, isNull value with
    | .arr items, false =>
      match dropFirst? value items with
      | some vs => (some (.arr vs), .ok ⟨slot, .arr vs⟩)
      | none => (some slot, .error .valueNotFound)
    | _, _ => (none, .ok ⟨slot, .null⟩)
  | _, none => (none, .error (.missingKey key))

def listIndex (segment : String) (length : Nat) : Except PathFault Nat :=
  match index? segment with
  | none => .error (.missingSegment segment)
  | some i => if i < length then .ok i else .error (.outOfBounds i length)

def inMember (key : String) (members : Fields Json) : Option Json → Json
  | some v => .obj (Fields.put key v members)
  | none => .obj (Fields.erase members key)

def inItem (i : Nat) (items : List Json) : Option Json → Json
  | some v => .arr (items.set i v)
  | none => .arr (items.eraseIdx i)

def editLeaf (name leaf : String) (op : Operation) (value : Json) :
    Json → Json × Except PathFault Change
  | .obj members =>
    let (slot, result) := op.onSlot leaf value (Fields.get? members leaf)
    (inMember leaf members slot, result)
  | .arr items =>
    match listIndex leaf items.length with
    | .error fault => (.arr items, .error fault)
    | .ok i =>
      let (slot, result) := op.onSlot leaf value items[i]?
      (inItem i items slot, result)
  | v => (v, .error (.notContainer (name ++ " (" ++ v.typeName ++ ")")))

/-- Whatever comes of the operation, each container on the way gets its child back as it is then. -/
def editBelow (op : Operation) (value : Json) (name segment : String) :
    List String → Json → Json × Except PathFault Change
  | [], container => editLeaf name segment op value container
  | s :: ss, .obj members =>
    match Fields.get? members segment with
    | none => (.obj members, .error (.missingSegment segment))
    | some child =>
      let (child, result) := editBelow op value segment s ss child
      (inMember segment members (some child), result)
  | s :: ss, .arr items =>
    match listIndex segment items.length with
    | .error fault => (.arr items, .error fault)
    | .ok i =>
      match items[i]? with
      | none => (.arr items, .error (.outOfBounds i items.length))
      | some child =>
        let (child, result) := editBelow op value segment s ss child
        (inItem i items (some child), result)
  | _ :: _, v => (v, .error (.notContainer segment))

/-- An operation at the segments below a value: the value as it is then, and what the operation
comes to. All segments but the last must exist. -/
def edit (op : Operation) (value : Json) (segments : List String) (root : Json) :
    Json × Except PathFault Change :=
  match segments with
  | [] => (root, .error .empty)
  | s :: ss => editBelow op value "root" s ss root

def apply (op : Operation) (value : Json) (segments : List String) (root : Json) :
    Except PathFault (Json × Change) :=
  let (root, result) := edit op value segments root
  result.map (root, ·)

end Rulebook.State
