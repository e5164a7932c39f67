import Rulebook.Source.Yaml.Scalar

namespace Rulebook.Source.Yaml

/-- A tag: the handle stands for the start of the tag's name, the suffix is the rest. -/
structure Tag where
  handle : List Char
  suffix : List Char

inductive Token where
  | version (major minor : Nat)
  | handle (name start : List Char)
  | documentStart
  | documentEnd
  | listStart
  | mapStart
  | blockEnd
  | flowListStart
  | flowListEnd
  | flowMapStart
  | flowMapEnd
  | dash
  | comma
  | key
  | colon
  | reference (name : String)
  | anchor (name : String)
  | tag (t : Tag)
  | scalar (style : Style) (text : String)
  | finish

/-- A place at which a key may have begun. A key that is not marked as such is known only by the
colon after it; it lies on one line and is at most 1024 characters long. -/
structure PossibleKey where
  /-- the number of tokens before it -/
  token : Nat
  /-- nothing else may begin there -/
  required : Bool
  cursor : Cursor

structure Lexer where
  cursor : Cursor
  /-- the column of the innermost block collection -/
  indent : Int
  /-- those of the collections around it -/
  outer : List Int
  /-- a possible key for each flow collection under way and for the block around them -/
  keys : List (Option PossibleKey)
  /-- a key may begin here -/
  keyAllowed : Bool
  tokens : Array Token

namespace Lexer

def start (cs : List Char) : Lexer := ⟨⟨cs, 0, 0, 0⟩, -1, [], [none], true, #[]⟩

def inFlow (l : Lexer) : Bool := 1 < l.keys.length

def push (l : Lexer) (t : Token) : Lexer := { l with tokens := l.tokens.push t }

def insert (l : Lexer) (place : Nat) (t : Token) : Lexer :=
  { l with tokens := l.tokens.extract 0 place ++ #[t] ++ l.tokens.extract place l.tokens.size }

def sign (l : Lexer) (n : Nat) (t : Token) : Lexer := { l with cursor := l.cursor.skip n }.push t

def allow (l : Lexer) (keyAllowed : Bool) : Lexer := { l with keyAllowed := keyAllowed }

def dropKey (l : Lexer) : Option Lexer :=
  match l.keys with
  | some k :: ks => if k.required then none else some { l with keys := none :: ks }
  | _ => some l

def saveKey (l : Lexer) : Option Lexer :=
  if !l.keyAllowed then some l
  else do
    let l ← l.dropKey
    let required := !l.inFlow && l.indent = l.cursor.column
    return { l with keys := some ⟨l.tokens.size, required, l.cursor⟩ :: l.keys.tail }

def dropStale (l : Lexer) : Option Lexer := do
  let keys ← l.keys.mapM fun key =>
    match key with
    | none => some none
    | some k =>
      if k.cursor.line < l.cursor.line || k.cursor.index + 1024 < l.cursor.index then
        if k.required then none else some none
      else some (some k)
  return { l with keys := keys }

/-- A block collection begins if the column lies right of the one around it. -/
def roll (l : Lexer) (column : Nat) (place : Nat) (t : Token) : Lexer :=
  if l.inFlow || (column : Int) ≤ l.indent then l
  else { l with indent := column, outer := l.indent :: l.outer }.insert place t

/-- Block collections end that lie right of the column. -/
def unroll (l : Lexer) (column : Int) : Lexer :=
  if l.inFlow then l else go l.outer l
where
  go : List Int → Lexer → Lexer
    | [], l => l
    | i :: outer, l =>
      if column < l.indent then go outer ({ l with indent := i, outer := outer }.push .blockEnd)
      else l

/-- Goes on over blanks, comments and line breaks. No tab may stand where a key may begin. -/
def skipGap : Nat → Lexer → Lexer
  | 0, l => l
  | fuel + 1, l =>
    let c := l.cursor
    let c := if c.index = 0 && c.peek = some '\uFEFF' then c.skip 1 else c
    let tabs := l.inFlow || !l.keyAllowed
    let c := skipComment (c.dropWhile fun ch => ch = ' ' || (tabs && ch = '\t'))
    if c.peek.any isBreak then
      skipGap fuel { l with cursor := c.newline.2, keyAllowed := l.keyAllowed || !l.inFlow }
    else { l with cursor := c }

def number? (cs : List Char) : Option (Nat × List Char) :=
  let ds := cs.takeWhile Char.isDigit
  if ds.isEmpty || 9 < ds.length then none
  else some (ds.foldl (fun n d => 10 * n + (d.toNat - '0'.toNat)) 0, cs.dropWhile Char.isDigit)

/-- The handle of a tag: an exclamation mark, or two with a word between them. Without the second
mark it is the start of a suffix. -/
def handle (c : Cursor) : List Char × Cursor :=
  let (word, c) := (c.skip 1).takeWhile isWordChar
  if c.peek = some '!' then ('!' :: word ++ ['!'], c.skip 1) else ('!' :: word, c)

def isTagChar (bracketed : Bool) (c : Char) : Bool :=
  isWordChar c || ";/?:@&=+$.%!~*'()".toList.contains c || (bracketed && [',', '[', ']'].contains c)

def octet? : List Char → Option (Nat × List Char)
  | '%' :: a :: b :: r => do
    return (16 * (← JsonText.hexValue? a) + (← JsonText.hexValue? b), r)
  | _ => none

def octetCount? (n : Nat) : Option Nat :=
  if n < 0x80 then some 1
  else if n < 0xc0 then none
  else if n < 0xe0 then some 2
  else if n < 0xf0 then some 3
  else if n < 0xf8 then some 4
  else none

def moreOctets? : Nat → List Char → Option (List Char × List Char)
  | 0, cs => some ([], cs)
  | k + 1, cs => do
    let (n, cs) ← octet? cs
    if n < 0x80 || 0xbf < n then none
    else
      let (rest, cs) ← moreOctets? k cs
      return (Char.ofNat n :: rest, cs)

def tagText? (bracketed : Bool) : Nat → List Char → List Char → Option (List Char × List Char)
  | 0, _, _ => none
  | _, [], acc => some (acc.reverse, [])
  | fuel + 1, c :: r, acc =>
    if !isTagChar bracketed c then some (acc.reverse, c :: r)
    else if c = '%' then do
      let (n, r) ← octet? (c :: r)
      let k ← octetCount? n
      let (more, r) ← moreOctets? (k - 1) r
      tagText? bracketed fuel r (more.reverse ++ Char.ofNat n :: acc)
    else tagText? bracketed fuel r (c :: acc)

def suffix? (bracketed : Bool) (c : Cursor) : Option (List Char × Cursor) := do
  let (text, rest) ← tagText? bracketed (c.rest.length + 1) c.rest []
  return (text, c.moved (c.rest.length - rest.length) rest)

/-- A tag in one of its forms: in angle brackets, with a handle, or with an exclamation mark
alone. -/
def tag? (c : Cursor) : Option (Tag × Cursor) :=
  if c.ahead 1 = some '<' then do
    let (s, c) ← suffix? true (c.skip 2)
    if s.isEmpty || c.peek ≠ some '>' then none else return (⟨[], s⟩, c.skip 1)
  else do
    let (h, after) := handle c
    let (s, c) ← suffix? false after
    if 1 < h.length && h.getLast? = some '!' then
      if s.isEmpty then none else return (⟨h, s⟩, c)
    else
      let s := h.tail ++ s
      return (if s.isEmpty then ⟨[], ['!']⟩ else ⟨['!'], s⟩, c)

def directive? (c : Cursor) : Option (Token × Cursor) := do
  let (name, c) := c.takeWhile isWordChar
  if !isGap c.peek then none
  else
    let c := c.dropWhile isBlank
    let (t, c) ←
      if name = "YAML".toList then do
        let (major, rest) ← number? c.rest
        match rest with
        | '.' :: rest =>
          let (minor, rest) ← number? rest
          return (Token.version major minor, c.moved (c.rest.length - rest.length) rest)
        | _ => none
      else if name = "TAG".toList then do
        if c.peek ≠ some '!' then none
        let (h, after) := handle c
        if 1 < h.length && h.getLast? ≠ some '!' then none
        if !after.peek.any isBlank then none
        let (s, c) ← suffix? true (after.dropWhile isBlank)
        if s.isEmpty || !isGap c.peek then none
        return (Token.handle h s, c)
      else none
    return (t, ← lineEnd? c)

def reference? (c : Cursor) : Option (String × Cursor) :=
  let (name, c) := c.takeWhile isWordChar
  if name.isEmpty then none
  else if isGap c.peek || c.peek.any fun ch => "?:,]\x7d%@\x60".toList.contains ch then
    some (String.ofList name, c)
  else none

def begin? (l : Lexer) (read : Cursor → Option (Token × Cursor)) : Option Lexer := do
  let l ← l.saveKey
  let (t, c) ← read l.cursor
  return ({ l with cursor := c }.allow false).push t

def blockScalar? (l : Lexer) (literal : Bool) : Option Lexer := do
  let l ← l.dropKey
  let (text, c) ← block? literal l.indent l.cursor
  return ({ l with cursor := c }.allow true).push
    (.scalar (if literal then .literal else .folded) (String.ofList text))

def quotedScalar? (l : Lexer) (single : Bool) : Option Lexer :=
  l.begin? fun c => (quoted? single c).map fun (text, c) =>
    (.scalar (if single then .single else .double) (String.ofList text), c)

def plainScalar? (l : Lexer) : Option Lexer := do
  let l ← l.saveKey
  let (text, broken, c) ← plain? l.inFlow l.indent l.cursor
  return ({ l with cursor := c }.allow broken).push (.scalar .plain (String.ofList text))

def flowStart? (l : Lexer) (t : Token) : Option Lexer := do
  let l ← l.saveKey
  return ({ l with keys := none :: l.keys }.allow true).sign 1 t

def flowEnd? (l : Lexer) (t : Token) : Option Lexer := do
  let l ← l.dropKey
  return ({ l with keys := if l.inFlow then l.keys.tail else l.keys }.allow false).sign 1 t

def dash? (l : Lexer) : Option Lexer :=
  if !l.inFlow && !l.keyAllowed then none
  else do
    let l ← (l.roll l.cursor.column l.tokens.size .listStart).dropKey
    return (l.allow true).sign 1 .dash

/-- A key that is marked as such. -/
def key? (l : Lexer) : Option Lexer :=
  if !l.inFlow && !l.keyAllowed then none
  else do
    let l ← (l.roll l.cursor.column l.tokens.size .mapStart).dropKey
    return (l.allow (!l.inFlow)).sign 1 .key

/-- A colon makes a key of what was possible as one; otherwise its key is marked or absent. -/
def colon? (l : Lexer) : Option Lexer :=
  match l.keys with
  | some k :: ks =>
    let l := { l with keys := none :: ks }.insert k.token .key
    some (((l.roll k.cursor.column k.token .mapStart).allow false).sign 1 .colon)
  | _ =>
    if !l.inFlow && !l.keyAllowed then none
    else some (((l.roll l.cursor.column l.tokens.size .mapStart).allow (!l.inFlow)).sign 1 .colon)

def topLevel? (l : Lexer) : Option Lexer := do return (← (l.unroll (-1)).dropKey).allow false

def startsPlain (l : Lexer) (c : Char) (next : Option Char) : Bool :=
  if c = '-' then !next.any isBlank
  else if c = '?' || c = ':' then !l.inFlow && !isGap next
  else !(isGap (some c) || ",[]\x7b\x7d#&*!|>'\"%@\x60".toList.contains c)

/-- The next token that is not the last, with the tokens that the indentation gives. -/
def token? (l : Lexer) (ch : Char) : Option Lexer :=
  let c := l.cursor
  let next := c.ahead 1
  if c.column = 0 && ch = '%' then do
    let l ← l.topLevel?
    let (t, c) ← directive? (c.skip 1)
    return { l with cursor := c }.push t
  else if c.isMark '-' then l.topLevel?.map (·.sign 3 .documentStart)
  else if c.isMark '.' then l.topLevel?.map (·.sign 3 .documentEnd)
  else if ch = '[' then l.flowStart? .flowListStart
  else if ch = '\x7b' then l.flowStart? .flowMapStart
  else if ch = ']' then l.flowEnd? .flowListEnd
  else if ch = '\x7d' then l.flowEnd? .flowMapEnd
  else if ch = ',' then l.dropKey.map fun l => (l.allow true).sign 1 .comma
  else if ch = '-' && isGap next then l.dash?
  else if ch = '?' && (l.inFlow || isGap next) then l.key?
  else if ch = ':' && (l.inFlow || isGap next) then l.colon?
  else if ch = '*' then
    l.begin? fun c => (reference? (c.skip 1)).map fun (name, c) => (.reference name, c)
  else if ch = '&' then
    l.begin? fun c => (reference? (c.skip 1)).map fun (name, c) => (.anchor name, c)
  else if ch = '!' then
    l.begin? fun c => do
      let (t, after) ← tag? c
      if isGap after.peek || (l.inFlow && after.peek = some ',') then return (.tag t, after)
      else none
  else if ch = '|' && !l.inFlow then l.blockScalar? true
  else if ch = '>' && !l.inFlow then l.blockScalar? false
  else if ch = '\'' then l.quotedScalar? true
  else if ch = '"' then l.quotedScalar? false
  else if l.startsPlain ch next then l.plainScalar?
  else none

def run : Nat → Lexer → Option (Array Token)
  | 0, _ => none
  | fuel + 1, l => do
    let l ← (l.skipGap (l.cursor.rest.length + 1)).dropStale
    let l := l.unroll l.cursor.column
    match l.cursor.peek with
    | none => return ((← l.topLevel?).push .finish).tokens
    | some ch => run fuel (← l.token? ch)

end Lexer

def tokens? (cs : List Char) : Option (List Token) :=
  (Lexer.run (cs.length + 2) (.start cs)).map Array.toList

end Rulebook.Source.Yaml
