import Rulebook.Source.JsonText
import Rulebook.Source.Yaml.Cursor

namespace Rulebook.Source.Yaml

inductive Style where
  | plain | single | double | literal | folded
deriving DecidableEq, Repr

structure Gap where
  blanks : List Char
  /-- a line break was passed, so that blanks do not count any more -/
  broken : Bool
  first : List Char
  more : List Char

namespace Gap

def none : Gap := ⟨[], false, [], []⟩

def text (g : Gap) : List Char :=
  if !g.broken then g.blanks
  else if g.first = ['\n'] then (if g.more.isEmpty then [' '] else g.more)
  else g.first ++ g.more

/-- Goes on over blanks and breaks. On a further line no tab may stand before a column. -/
def scan (indent : Int) : Nat → Cursor → Gap → Option (Gap × Cursor)
  | 0, _, _ => .none
  | fuel + 1, c, g =>
    match c.peek with
    | .none => some (g, c)
    | some ch =>
      if isBlank ch then
        if !g.broken then scan indent fuel (c.skip 1) { g with blanks := g.blanks ++ [ch] }
        else if ch = '\t' && (c.column : Int) < indent then .none
        else scan indent fuel (c.skip 1) g
      else if isBreak ch then
        let (b, c) := c.newline
        scan indent fuel c
          (if g.broken then { g with more := g.more ++ b } else ⟨[], true, b, []⟩)
      else some (g, c)

end Gap

def isFlowSign (c : Char) : Bool := c ∈ [',', '[', ']', '\x7b', '\x7d']

/-- The word of a plain scalar that starts here, which may be empty, and what follows it. Within a
flow collection no sign may follow a colon directly. -/
def plainWord? (flow : Bool) : List Char → Option (List Char × List Char)
  | [] => some ([], [])
  | c :: r =>
    let next := r.head?
    if isGap (some c) || (c = ':' && isGap next) || (flow && isFlowSign c) then some ([], c :: r)
    else if flow && c = ':' && next.any (fun n => isFlowSign n || n = '?') then none
    else (plainWord? flow r).map fun (w, r) => (c :: w, r)

/-- The text of a plain scalar after some words and a gap, whether it ends at the start of a line,
and the place after it. -/
def plainFrom (flow : Bool) (indent : Int) : Nat → Cursor → Gap → List Char →
    Option (List Char × Bool × Cursor)
  | 0, _, _, _ => none
  | fuel + 1, c, g, out =>
    if c.atMark || c.peek = some '#' then some (out, g.broken, c)
    else do
      let (word, rest) ← plainWord? flow c.rest
      if word.isEmpty then return (out, g.broken, c)
      else
        let c := c.moved word.length rest
        let out := out ++ g.text ++ word
        if c.rest.isEmpty || !isGap c.peek then return (out, false, c)
        else
          let (g, c) ← Gap.scan indent (c.rest.length + 1) c .none
          if !flow && (c.column : Int) < indent then return (out, g.broken, c)
          else plainFrom flow indent fuel c g out

/-- A plain scalar, which within block collections lies right of their indentation. -/
def plain? (flow : Bool) (indent : Int) (c : Cursor) : Option (List Char × Bool × Cursor) :=
  plainFrom flow (indent + 1) (c.rest.length + 1) c .none []

def named? : Char → Option Char
  | '0' => some '\x00'
  | 'a' => some '\x07'
  | 'b' => some '\x08'
  | 't' | '\t' => some '\t'
  | 'n' => some '\n'
  | 'v' => some '\x0b'
  | 'f' => some '\x0c'
  | 'r' => some '\r'
  | 'e' => some '\x1b'
  | ' ' => some ' '
  | '"' => some '"'
  | '/' => some '/'
  | '\\' => some '\\'
  | 'N' => some '\x85'
  | '_' => some '\xa0'
  | 'L' => some '\u2028'
  | 'P' => some '\u2029'
  | _ => none

def digitCount? : Char → Option Nat
  | 'x' => some 2
  | 'u' => some 4
  | 'U' => some 8
  | _ => none

def charOf? (n : Nat) : Option Char := if n.isValidChar then some (Char.ofNat n) else none

def escape? : List Char → Option (Char × Nat)
  | [] => none
  | c :: r =>
    match digitCount? c with
    | none => (named? c).map (·, 1)
    | some n => do
      let digits := r.take n
      if digits.length < n then none
      else
        let values ← digits.mapM JsonText.hexValue?
        return (← charOf? (values.foldl (fun v d => 16 * v + d) 0), n + 1)

/-- The piece of a quoted scalar up to a gap or to its end, the number of characters read, and
whether it ends before an escaped line break. -/
def piece? (single : Bool) : Nat → List Char → Nat → List Char → Option (List Char × Nat × Bool)
  | 0, _, _, _ => none
  | _, [], n, acc => some (acc.reverse, n, false)
  | fuel + 1, c :: r, n, acc =>
    if isGap (some c) then some (acc.reverse, n, false)
    else if single then
      if c = '\'' then
        match r with
        | '\'' :: r => piece? single fuel r (n + 2) ('\'' :: acc)
        | _ => some (acc.reverse, n, false)
      else piece? single fuel r (n + 1) (c :: acc)
    else if c = '"' then some (acc.reverse, n, false)
    else if c = '\\' then
      if r.head?.any isBreak then some (acc.reverse, n + 1, true)
      else do
        let (e, k) ← escape? r
        piece? single fuel (r.drop k) (n + 1 + k) (e :: acc)
    else piece? single fuel r (n + 1) (c :: acc)

def quotedFrom (single : Bool) : Nat → Cursor → List Char → Option (List Char × Cursor)
  | 0, _, _ => none
  | fuel + 1, c, out =>
    if c.atMark || c.rest.isEmpty then none
    else do
      let (text, n, escaped) ← piece? single (c.rest.length + 1) c.rest 0 []
      let c := c.skip n
      let out := out ++ text
      if !escaped && c.peek = some (if single then '\'' else '"') then return (out, c.skip 1)
      else
        let c := if escaped then c.newline.2 else c
        let (g, c) ← Gap.scan 0 (c.rest.length + 1) c ⟨[], escaped, [], []⟩
        quotedFrom single fuel c (out ++ g.text)

def quoted? (single : Bool) (c : Cursor) : Option (List Char × Cursor) :=
  quotedFrom single (c.rest.length + 1) (c.skip 1) []

inductive Chomp where
  | strip | clip | keep
deriving DecidableEq, Repr

def chomp? : Option Char → Option Chomp
  | some '+' => some .keep
  | some '-' => some .strip
  | _ => none

def indentDigit? (c : Cursor) : Option (Nat × Cursor) :=
  match c.peek with
  | some ch =>
    if !ch.isDigit then some (0, c)
    else if ch = '0' then none
    else some (ch.toNat - '0'.toNat, c.skip 1)
  | none => some (0, c)

/-- What a block scalar says about itself after its sign, in either order. -/
def blockHeader? (c : Cursor) : Option (Chomp × Nat × Cursor) := do
  match chomp? c.peek with
  | some chomp =>
    let (n, c) ← indentDigit? (c.skip 1)
    return (chomp, n, c)
  | none =>
    let (n, c) ← indentDigit? c
    match chomp? c.peek with
    | some chomp => if n = 0 then return (.clip, n, c) else return (chomp, n, c.skip 1)
    | none => return (.clip, n, c)

def skipComment (c : Cursor) : Cursor :=
  if c.peek = some '#' then c.dropWhile (!isBreak ·) else c

def lineEnd? (c : Cursor) : Option Cursor :=
  let c := skipComment (c.dropWhile isBlank)
  if c.rest.isEmpty || c.peek.any isBreak then some c.newline.2 else none

/-- Lines without content, as line breaks, the widest of them and the place of the next content. The
indentation zero stands for one that is not known yet. -/
def emptyLines (indent : Nat) : Nat → Cursor → List Char → Nat → Option (List Char × Nat × Cursor)
  | 0, _, _, _ => none
  | fuel + 1, c, breaks, widest =>
    let spaces := (c.rest.takeWhile (· = ' ')).length
    let c := c.skip (if indent = 0 then spaces else min spaces (indent - c.column))
    let widest := max widest c.column
    if (indent = 0 || c.column < indent) && c.peek = some '\t' then none
    else if c.peek.any isBreak then
      let (b, c) := c.newline
      emptyLines indent fuel c (breaks ++ b) widest
    else some (breaks, widest, c)

/-- Lines of a block scalar after some text, the break that ended it and the empty lines since. -/
def blockLines (literal : Bool) (indent : Nat) : Nat → Cursor → (out first more : List Char) →
    (blank : Bool) → Option (List Char × List Char × List Char × Cursor)
  | 0, _, _, _, _, _ => none
  | fuel + 1, c, out, first, more, blank =>
    if c.column ≠ indent || c.rest.isEmpty then some (out, first, more, c)
    else do
      let blankHere := c.peek.any isBlank
      let joined :=
        if !literal && first = ['\n'] && !blank && !blankHere then
          if more.isEmpty then [' '] else []
        else first
      let (line, c) := c.takeWhile (!isBreak ·)
      let (first, c) := c.newline
      let out := out ++ joined ++ more ++ line
      let (more, _, c) ← emptyLines indent (c.rest.length + 1) c [] 0
      blockLines literal indent fuel c out first more blankHere

def block? (literal : Bool) (indent : Int) (c : Cursor) : Option (List Char × Cursor) := do
  let (chomp, given, c) ← blockHeader? (c.skip 1)
  let c ← lineEnd? c
  let size := c.rest.length + 1
  let given := if given = 0 then 0 else (max indent 0).toNat + given
  let (more, widest, c) ← emptyLines given size c [] 0
  let indent := if given = 0 then max widest (max (indent + 1).toNat 1) else given
  let (out, first, more, c) ← blockLines literal indent size c [] [] more false
  return (out ++ (if chomp = .strip then [] else first) ++ (if chomp = .keep then more else []), c)

end Rulebook.Source.Yaml
