import Rulebook.Source.Yaml.Token

namespace Rulebook.Source.Yaml

structure Properties where
  number : Option Nat
  tag : Option (List Char)

inductive Tree where
  | scalar (p : Properties) (style : Style) (text : String)
  | list (p : Properties) (items : List Tree)
  | map (p : Properties) (entries : List (Tree × Tree))
  | reference (number : Nat)

namespace Tree

def empty : Tree := scalar ⟨none, none⟩ .plain ""

/-- What is left to read: tokens, the starts that handles stand for, and the numbers of anchors. -/
structure Reader where
  tokens : List Token
  handles : List (List Char × List Char)
  anchors : List (String × Nat)

namespace Reader

def drop (r : Reader) (n : Nat) : Reader := { r with tokens := r.tokens.drop n }

/-- Gives a name the number of a new node. An alias stands for the last node with its number. -/
def name (r : Reader) (name : String) : Nat × Reader :=
  let n := r.anchors.length
  (n, { r with anchors := (name, n) :: r.anchors.filter (·.1 != name) })

def resolve? (r : Reader) (t : Tag) : Option (List Char) :=
  if t.handle.isEmpty then some t.suffix
  else (r.handles.lookup t.handle).map (· ++ t.suffix)

/-- An anchor and a tag in either order; an empty tag is none. -/
def properties? (r : Reader) : Option (Properties × Reader) := do
  let tagged (t : Tag) : Option (Option (List Char)) :=
    (r.resolve? t).map fun s => if s.isEmpty then none else some s
  match r.tokens with
  | .anchor a :: .tag t :: _ | .tag t :: .anchor a :: _ =>
    let (n, r) := r.name a
    return (⟨some n, ← tagged t⟩, r.drop 2)
  | .anchor a :: _ =>
    let (n, r) := r.name a
    return (⟨some n, none⟩, r.drop 1)
  | .tag t :: _ => return (⟨none, ← tagged t⟩, r.drop 1)
  | _ => return (⟨none, none⟩, r)

end Reader

/-- A scalar that is written out and has the tag `!` is one without a tag. -/
def ofScalar (p : Properties) (style : Style) (text : String) : Tree :=
  scalar (if p.tag = some ['!'] then ⟨p.number, none⟩ else p) style text

/-- No node comes where one of these tokens comes. -/
def endsEntry : Option Token → Bool
  | some .key | some .colon | some .blockEnd => true
  | _ => false

def endsListItem : Option Token → Bool
  | some .comma | some .flowListEnd => true
  | _ => false

def endsMapItem : Option Token → Bool
  | some .comma | some .flowMapEnd => true
  | _ => false

mutual

/-- A node. Block collections may come only in `block` context, and a block list without an
indentation of its own only as part of an entry. -/
def node? (fuel : Nat) (block entry : Bool) (r : Reader) : Option (Tree × Reader) :=
  match fuel with
  | 0 => none
  | fuel + 1 =>
    match r.tokens with
    | .reference a :: _ => (r.anchors.lookup a).map fun n => (reference n, r.drop 1)
    | _ => do
      let before := r.tokens.length
      let (p, r) ← r.properties?
      match r.tokens, block, entry with
      | .dash :: _, _, true => (looseItems? fuel r []).map fun (ts, r) => (list p ts, r)
      | .scalar style text :: _, _, _ => return (ofScalar p style text, r.drop 1)
      | .flowListStart :: _, _, _ =>
        (flowItems? fuel (r.drop 1) true []).map fun (ts, r) => (list p ts, r)
      | .flowMapStart :: _, _, _ =>
        (flowEntries? fuel (r.drop 1) true []).map fun (es, r) => (map p es, r)
      | .listStart :: _, true, _ => (items? fuel (r.drop 1) []).map fun (ts, r) => (list p ts, r)
      | .mapStart :: _, true, _ => (entries? fuel (r.drop 1) []).map fun (es, r) => (map p es, r)
      | _, _, _ =>
        if r.tokens.length < before then return (scalar p .plain "", r) else none

def items? (fuel : Nat) (r : Reader) (acc : List Tree) : Option (List Tree × Reader) :=
  match fuel with
  | 0 => none
  | fuel + 1 =>
    match r.tokens with
    | .blockEnd :: _ => some (acc.reverse, r.drop 1)
    | .dash :: .dash :: _ | .dash :: .blockEnd :: _ => items? fuel (r.drop 1) (empty :: acc)
    | .dash :: _ => do
      let (t, r) ← node? fuel true false (r.drop 1)
      items? fuel r (t :: acc)
    | _ => none

/-- The items of a block list without an indentation of its own. -/
def looseItems? (fuel : Nat) (r : Reader) (acc : List Tree) : Option (List Tree × Reader) :=
  match fuel with
  | 0 => none
  | fuel + 1 =>
    match r.tokens with
    | .dash :: next =>
      match next with
      | .dash :: _ | .key :: _ | .colon :: _ | .blockEnd :: _ =>
        looseItems? fuel (r.drop 1) (empty :: acc)
      | _ => do
        let (t, r) ← node? fuel true false (r.drop 1)
        looseItems? fuel r (t :: acc)
    | _ => some (acc.reverse, r)

def entries? (fuel : Nat) (r : Reader) (acc : List (Tree × Tree)) :
    Option (List (Tree × Tree) × Reader) :=
  match fuel with
  | 0 => none
  | fuel + 1 =>
    match r.tokens with
    | .blockEnd :: _ => some (acc.reverse, r.drop 1)
    | .key :: next => do
      let (k, r) ←
        if endsEntry next.head? then some (empty, r.drop 1) else node? fuel true true (r.drop 1)
      match r.tokens with
      | .colon :: next =>
        let (v, r) ←
          if endsEntry next.head? then some (empty, r.drop 1) else node? fuel true true (r.drop 1)
        entries? fuel r ((k, v) :: acc)
      | _ => entries? fuel r ((k, empty) :: acc)
    | _ => none

/-- The items of a flow list, in which an entry of a mapping is a mapping of its own. -/
def flowItems? (fuel : Nat) (r : Reader) (first : Bool) (acc : List Tree) :
    Option (List Tree × Reader) :=
  match fuel with
  | 0 => none
  | fuel + 1 =>
    match r.tokens with
    | .flowListEnd :: _ => some (acc.reverse, r.drop 1)
    | .comma :: .flowListEnd :: _ => if first then none else some (acc.reverse, r.drop 2)
    | t :: _ =>
      let r? := if first then some r else match t with
        | .comma => some (r.drop 1)
        | _ => none
      match r? with
      | none => none
      | some r =>
        match r.tokens with
        | .key :: next => do
          let (k, r) ←
            if endsListItem next.head? || next.head?.any (· matches .colon) then
              some (empty, r.drop 2)
            else node? fuel false false (r.drop 1)
          match r.tokens with
          | .colon :: next =>
            let (v, r) ←
              if endsListItem next.head? then some (empty, r.drop 1)
              else node? fuel false false (r.drop 1)
            flowItems? fuel r false (map ⟨none, none⟩ [(k, v)] :: acc)
          | _ => flowItems? fuel r false (map ⟨none, none⟩ [(k, empty)] :: acc)
        | _ => do
          let (t, r) ← node? fuel false false r
          flowItems? fuel r false (t :: acc)
    | [] => none

/-- The entries of a flow mapping. A node that is not marked as a key has no value. -/
def flowEntries? (fuel : Nat) (r : Reader) (first : Bool) (acc : List (Tree × Tree)) :
    Option (List (Tree × Tree) × Reader) :=
  match fuel with
  | 0 => none
  | fuel + 1 =>
    match r.tokens with
    | .flowMapEnd :: _ => some (acc.reverse, r.drop 1)
    | .comma :: .flowMapEnd :: _ => if first then none else some (acc.reverse, r.drop 2)
    | t :: _ =>
      let r? := if first then some r else match t with
        | .comma => some (r.drop 1)
        | _ => none
      match r? with
      | none => none
      | some r =>
        match r.tokens with
        | .key :: next => do
          let (k, r) ←
            if endsMapItem next.head? || next.head?.any (· matches .colon) then
              some (empty, r.drop 1)
            else node? fuel false false (r.drop 1)
          match r.tokens with
          | .colon :: next =>
            let (v, r) ←
              if endsMapItem next.head? then some (empty, r.drop 1)
              else node? fuel false false (r.drop 1)
            flowEntries? fuel r false ((k, v) :: acc)
          | _ => flowEntries? fuel r false ((k, empty) :: acc)
        | _ => do
          let (k, r) ← node? fuel false false r
          flowEntries? fuel r false ((k, empty) :: acc)
    | [] => none

end

def standardHandles : List (List Char × List Char) :=
  [(['!'], ['!']), (['!', '!'], "tag:yaml.org,2002:".toList)]

/-- Directives at the start of a document: at most one for the version, which must be 1.1 or 1.2,
and one for each handle. -/
def directives? (versioned : Bool) (handles : List (List Char × List Char)) :
    List Token → Option (List (List Char × List Char) × List Token)
  | .version major minor :: ts =>
    if versioned || major ≠ 1 || (minor ≠ 1 && minor ≠ 2) then none
    else directives? true handles ts
  | .handle h start :: ts =>
    if (handles.lookup h).isSome then none else directives? versioned ((h, start) :: handles) ts
  | ts => some (handles, ts)

def isOver : List Token → Bool
  | [.finish] => true
  | .documentEnd :: ts => isOver ts
  | _ => false

def isDirective : Option Token → Bool
  | some (.version _ _) | some (.handle _ _) => true
  | _ => false

def endsDocument : Option Token → Bool
  | some .documentStart | some .documentEnd | some .finish => true
  | t => isDirective t

def ofTokens? (ts : List Token) : Option Tree :=
  let fuel := 4 * ts.length + 8
  let content (r : Reader) : Option Tree := do
    let (t, r) ← node? fuel true false r
    if isOver r.tokens then return t else none
  match ts with
  | [.finish] => some empty
  | .documentStart :: _ => explicit content ts
  | t :: _ =>
    if isDirective (some t) then explicit content ts else content ⟨ts, standardHandles, []⟩
  | [] => none
where
  explicit (content : Reader → Option Tree) (ts : List Token) : Option Tree := do
    let (handles, ts) ← directives? false [] ts
    match ts with
    | .documentStart :: ts =>
      if endsDocument ts.head? then if isOver ts then return empty else none
      else content ⟨ts, handles ++ standardHandles, []⟩
    | _ => none

end Tree

end Rulebook.Source.Yaml
