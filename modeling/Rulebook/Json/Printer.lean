import Rulebook.Json.Value
import Rulebook.Decimal.Shortest
import Rulebook.Decimal.Notation

namespace Rulebook.Json

/-- Numbers are written positionally from five places after the point to sixteen before it, and
whole floating-point numbers end in `.0`. -/
def numberForm : Decimal.Notation := ⟨-5, 15, true, 1⟩

def floatText (x : Float) : String :=
  if x.isNaN || x.isInf then "null"
  else numberForm.write (Decimal.isNegative x) (Decimal.shortest x)

def hexDigit (n : Nat) : Char := if n < 10 then Char.ofNat (48 + n) else Char.ofNat (87 + n)

def escapeChar (c : Char) : List Char :=
  if c = '"' then ['\\', '"']
  else if c = '\\' then ['\\', '\\']
  else if c = '\n' then ['\\', 'n']
  else if c = '\r' then ['\\', 'r']
  else if c = '\t' then ['\\', 't']
  else if c = '\x08' then ['\\', 'b']
  else if c = '\x0c' then ['\\', 'f']
  else if c.toNat < 32 then ['\\', 'u', '0', '0', hexDigit (c.toNat / 16), hexDigit (c.toNat % 16)]
  else [c]

def quote (s : String) : List Char := '"' :: s.toList.flatMap escapeChar ++ ['"']

def commas : List (List Char) → List Char
  | [] => []
  | [p] => p
  | p :: ps => p ++ ',' :: commas ps

def intText (n : Int) : List Char := (toString n).toList

def compact : Json → List Char
  | null => ['n', 'u', 'l', 'l']
  | bool true => ['t', 'r', 'u', 'e']
  | bool false => ['f', 'a', 'l', 's', 'e']
  | int n => intText n
  | float x => (floatText x).toList
  | str s => quote s
  | arr items => '[' :: commas (compactItems items) ++ [']']
  | obj members => '\x7b' :: commas (compactMembers members) ++ ['\x7d']
where
  compactItems : List Json → List (List Char)
    | [] => []
    | v :: vs => compact v :: compactItems vs
  compactMembers : List (String × Json) → List (List Char)
    | [] => []
    | (k, v) :: ms => (quote k ++ ':' :: compact v) :: compactMembers ms

def print (v : Json) : String := String.ofList (compact v)

def newline (depth : Nat) : List Char := '\n' :: List.replicate (2 * depth) ' '

def block (openBracket closeBracket : Char) (depth : Nat) (ps : List (List Char)) : List Char :=
  if ps.isEmpty then [openBracket, closeBracket]
  else openBracket :: commas (ps.map (newline (depth + 1) ++ ·)) ++ newline depth ++ [closeBracket]

def indented (depth : Nat) : Json → List Char
  | arr items => block '[' ']' depth (indentedItems depth items)
  | obj members => block '\x7b' '\x7d' depth (indentedMembers depth members)
  | v => compact v
where
  indentedItems (depth : Nat) : List Json → List (List Char)
    | [] => []
    | v :: vs => indented (depth + 1) v :: indentedItems depth vs
  indentedMembers (depth : Nat) : List (String × Json) → List (List Char)
    | [] => []
    | (k, v) :: ms => (quote k ++ ':' :: ' ' :: indented (depth + 1) v) :: indentedMembers depth ms

def pretty (v : Json) : String := String.ofList (indented 0 v)

/-- The form of a value inside running text: texts stand without quotes and null is `nil`. -/
def render : Json → String
  | str s => s
  | null => "nil"
  | v => print v

end Rulebook.Json
