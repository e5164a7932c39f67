namespace Rulebook.Source.Yaml

structure Cursor where
  rest : List Char
  /-- characters before the place -/
  index : Nat
  line : Nat
  column : Nat

def isBlank (c : Char) : Bool := c = ' ' || c = '\t'

/-- A line or paragraph separator, which stays as it is in texts. -/
def isSeparator (c : Char) : Bool := c = '\u2028' || c = '\u2029'

def isBreak (c : Char) : Bool := c = '\n' || c = '\r' || c = '\x85' || isSeparator c

def isGap : Option Char → Bool
  | some c => isBlank c || isBreak c
  | none => true

def isWordChar (c : Char) : Bool := c.isAlphanum || c = '_' || c = '-'

namespace Cursor

def peek (c : Cursor) : Option Char := c.rest.head?

def ahead (c : Cursor) (n : Nat) : Option Char := c.rest[n]?

def moved (c : Cursor) (n : Nat) (rest : List Char) : Cursor :=
  { c with rest := rest, index := c.index + n, column := c.column + n }

def skip (c : Cursor) (n : Nat) : Cursor := c.moved n (c.rest.drop n)

def takeWhile (c : Cursor) (test : Char → Bool) : List Char × Cursor :=
  let taken := c.rest.takeWhile test
  (taken, c.moved taken.length (c.rest.dropWhile test))

def dropWhile (c : Cursor) (test : Char → Bool) : Cursor := (c.takeWhile test).2

/-- The line break here as it stands in texts, and the start of the next line. Nothing is taken
where there is no break. -/
def newline (c : Cursor) : List Char × Cursor :=
  match c.rest with
  | '\r' :: '\n' :: r => (['\n'], ⟨r, c.index + 2, c.line + 1, 0⟩)
  | b :: r =>
    if isBreak b then ([if isSeparator b then b else '\n'], ⟨r, c.index + 1, c.line + 1, 0⟩)
    else ([], c)
  | [] => ([], c)

/-- At the start of a line three equal characters stand here, and nothing follows them directly. -/
def isMark (c : Cursor) (ch : Char) : Bool :=
  c.column = 0 && c.rest.take 3 == [ch, ch, ch] && isGap (c.ahead 3)

def atMark (c : Cursor) : Bool := c.isMark '-' || c.isMark '.'

end Cursor

end Rulebook.Source.Yaml
