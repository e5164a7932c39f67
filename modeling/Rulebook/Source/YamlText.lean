import Rulebook.Source.Yaml.Reading

namespace Rulebook.Source.YamlText

open Yaml

def isAdmitted (c : Char) : Bool :=
  let n := c.toNat
  n = 0x09 || n = 0x0a || n = 0x0d || (0x20 ≤ n && n ≤ 0x7e) || n = 0x85 ||
    (0xa0 ≤ n && n ≤ 0xfffd) || 0x10000 ≤ n

mutual

def size : Tree → Nat
  | .scalar _ _ _ | .reference _ => 1
  | .list _ items => 2 + sizeItems items
  | .map _ entries => 2 + sizeEntries entries

def sizeItems : List Tree → Nat
  | [] => 0
  | t :: ts => size t + sizeItems ts

def sizeEntries : List (Tree × Tree) → Nat
  | [] => 0
  | (k, v) :: es => size k + size v + sizeEntries es

def numbered : Tree → List (Nat × Tree)
  | .scalar p style text => p.number.toList.map (·, .scalar p style text)
  | .list p items => p.number.toList.map (·, .list p items) ++ numberedItems items
  | .map p entries => p.number.toList.map (·, .map p entries) ++ numberedEntries entries
  | .reference _ => []

def numberedItems : List Tree → List (Nat × Tree)
  | [] => []
  | t :: ts => numbered t ++ numberedItems ts

def numberedEntries : List (Tree × Tree) → List (Nat × Tree)
  | [] => []
  | (k, v) :: es => numbered k ++ numbered v ++ numberedEntries es

end

/-- What aliases stand for, and how many of them may be followed. -/
structure Targets where
  nodes : List (Nat × Tree)
  limit : Nat

/-- A hundred aliases may be followed for each part of the document. -/
def Targets.of (t : Tree) : Targets := ⟨(numbered t).reverse, 100 * size t⟩

def special (p : Properties) (n : Node) : Node := if isOwn p.tag then .special n else n

/-- The node that a tree gives and the number of aliases followed so far. What is too deep, and an
alias beyond the limit, cannot be read. -/
def node (targets : Targets) : Nat → Tree → StateM Nat Node
  | 0, _ => return .unreadable
  | _, .scalar p style text => return .scalar (Yaml.scalar p.tag style text)
  | depth + 1, .list p items =>
    return special p (.list (← items.mapM (node targets depth)))
  | depth + 1, .map p entries =>
    return special p (.map (← entries.mapM fun (k, v) =>
      return (← node targets depth k, ← node targets depth v)))
  | depth + 1, .reference n => do
    let followed ← get
    if targets.limit ≤ followed then return .unreadable
    else
      set (followed + 1)
      match targets.nodes.lookup n with
      | some t => node targets depth t
      | none => return .unreadable

/-- Lists, mappings and records may be 128 levels deep; a record is written as a mapping. -/
def grammar : Node.Grammar := ⟨false, 128⟩

/-- Levels of a tree that are kept. With an alias on each level they still exceed the depth that is
read. -/
def keptDepth : Nat := 2 * (grammar.depth + 2)

def parse? (bytes : ByteArray) : Option Node := do
  let s ← decodeUtf8? bytes
  if !s.toList.all isAdmitted then none
  else
    let t ← Tree.ofTokens? (← tokens? s.toList)
    return ((node (.of t) keptDepth t).run 0).1

end Rulebook.Source.YamlText
