import Rulebook.Rule.Token

namespace Rulebook.Rule

def spelling (kind : Kind) (text : List Char) : List Char :=
  match kind, text with
  | .punct, ['&', '&'] => [' ', 'a', 'n', 'd', ' ']
  | .punct, ['|', '|'] => [' ', 'o', 'r', ' ']
  | .punct, ['!', '='] | .punct, ['!', '=', '='] => [' ', '~', '=', ' ']
  | .punct, ['=', '=', '='] => [' ', '=', '=', ' ']
  | .punct, ['!'] => [' ', 'n', 'o', 't', ' ']
  | .ident, ['n', 'u', 'l', 'l'] => ['n', 'i', 'l']
  | .ident, ['u', 'n', 'd', 'e', 'f', 'i', 'n', 'e', 'd'] => ['n', 'i', 'l']
  | _, t => t

def Lexeme.lowered (l : Lexeme) : List Char :=
  match l.kind with
  | none => l.text
  | some k => spelling k l.text

/-- The operators and words of the other family are replaced; blanks, comments, literals and all
other tokens stay as they are. -/
def lower (expr : String) : Except LexError String :=
  (lexemes 0 expr.toList).map fun ls => String.ofList (ls.flatMap Lexeme.lowered)

/-- A chunk that returns the value of an expression. The line breaks keep a comment at its end
from taking the bracket with it. -/
def returnChunk (lowered : String) : String := "return (\n" ++ lowered ++ "\n)"

end Rulebook.Rule
