import Rulebook.Json.Value

namespace Rulebook.Source

/-- What a scalar stands for, depending on what is wanted; none where it cannot stand for it. A
plain `5` is both a number and a text in one notation and only a number in the other. -/
structure Scalar where
  value : Option Json
  text : Option String
  bool : Option Bool
  nat : Option Nat
  /-- in a place that may be left empty it leaves the place empty -/
  isNull : Bool
  /-- it can stand for a list or a mapping without entries -/
  isEmpty : Bool

/-- A document as its text gives it, before it is known what is wanted of each part. Mappings keep
repeated keys. -/
inductive Node where
  | scalar (s : Scalar)
  | list (items : List Node)
  | map (entries : List (Node × Node))
  /-- a list or mapping of a kind of its own, so that it stands for no value -/
  | special (content : Node)

namespace Node

/-- A part that can be passed over and not be read. -/
def unreadable : Node := scalar ⟨none, none, none, none, false, false⟩

def boolOf? : Json → Option Bool
  | .bool b => some b
  | _ => none

def natOf? : Json → Option Nat
  | .int n => if 0 ≤ n then some n.toNat else none
  | _ => none

def isNullValue : Json → Bool
  | .null => true
  | _ => false

def ofValue (v : Json) : Node :=
  scalar ⟨some v, v.ofString?, boolOf? v, natOf? v, isNullValue v, false⟩

structure Grammar where
  /-- a record may be written as the list of its fields -/
  positional : Bool
  /-- levels of lists and mappings that are read -/
  depth : Nat

def text? : Node → Option String
  | scalar s => s.text
  | _ => none

def bool? : Node → Option Bool
  | scalar s => s.bool
  | _ => none

def nat? : Node → Option Nat
  | scalar s => s.nat
  | _ => none

def isNull : Node → Bool
  | scalar s => s.isNull
  | _ => false

mutual

/-- The value of a node at most `depth` levels deep. -/
def value? (depth : Nat) : Node → Option Json
  | scalar s => s.value
  | list items =>
    match depth with
    | 0 => none
    | d + 1 => (values? d items).map .arr
  | map entries =>
    match depth with
    | 0 => none
    | d + 1 => (members? d entries).map fun ms => .obj (Fields.ofList ms)
  | special _ => none

def values? (depth : Nat) : List Node → Option (List Json)
  | [] => some []
  | n :: ns => do
    let v ← value? depth n
    let vs ← values? depth ns
    return v :: vs

def members? (depth : Nat) : List (Node × Node) → Option (List (String × Json))
  | [] => some []
  | (k, n) :: es => do
    let k ← k.text?
    let v ← value? depth n
    let ms ← members? depth es
    return (k, v) :: ms

end

def list? (g : Grammar) : Node → Option (Grammar × List Node)
  | list items => if g.depth = 0 then none else some ({ g with depth := g.depth - 1 }, items)
  | scalar s => if s.isEmpty then some (g, []) else none
  | map _ => none
  | special n => list? g n

def map? (g : Grammar) : Node → Option (Grammar × List (String × Node))
  | map entries => do
    if g.depth = 0 then none
    let es ← entries.mapM fun (k, v) => k.text?.map (·, v)
    return ({ g with depth := g.depth - 1 }, es)
  | scalar s => if s.isEmpty then some (g, []) else none
  | list _ => none
  | special n => map? g n

/-- The fields of a record with the given names, in that order. Other entries are passed over; a
field given twice spoils the record. -/
def record? (g : Grammar) (names : List String) : Node → Option (Grammar × List (Option Node))
  | list items =>
    if !g.positional || g.depth = 0 || names.length < items.length then none
    else some ({ g with depth := g.depth - 1 },
      items.map some ++ List.replicate (names.length - items.length) none)
  | n => do
    let (g, es) ← map? g n
    let fields ← names.mapM fun name =>
      match es.filter (·.1 == name) with
      | [] => some none
      | [(_, v)] => some (some v)
      | _ => none
    return (g, fields)

end Node

end Rulebook.Source
