namespace Rulebook.Text

/-- Space, tab, line feed, form feed and carriage return. -/
def isAsciiBlank (c : Char) : Bool :=
  c = ' ' || c = '\t' || c = '\n' || c = '\x0c' || c = '\r'

/-- The ranges of the Unicode property `White_Space`, ascending. -/
def blankRanges : List (Nat × Nat) :=
  [(0x09, 0x0d), (0x20, 0x20), (0x85, 0x85), (0xa0, 0xa0), (0x1680, 0x1680), (0x2000, 0x200a),
    (0x2028, 0x2029), (0x202f, 0x202f), (0x205f, 0x205f), (0x3000, 0x3000)]

def isBlank (c : Char) : Bool :=
  blankRanges.any fun (lo, hi) => lo ≤ c.toNat && c.toNat ≤ hi

def trimLeft (cs : List Char) : List Char := cs.dropWhile isBlank

def trim (s : String) : String :=
  String.ofList (trimLeft (trimLeft s.toList).reverse).reverse

def blank (s : String) : Bool := s.toList.all isBlank

def asciiLower (s : String) : String := String.ofList (s.toList.map Char.toLower)

def isIdentStart (c : Char) : Bool := c.isAlpha || c = '_'
def isIdentRest (c : Char) : Bool := c.isAlphanum || c = '_'

/-- A letter or underscore, then letters, digits and underscores, all of them ASCII. -/
def isIdent (s : String) : Bool :=
  match s.toList with
  | [] => false
  | c :: cs => isIdentStart c && cs.all isIdentRest

/-- The pieces of a text between the occurrences of a separator, one more than there are
occurrences. -/
def pieces (sep : Char) : List Char → List (List Char)
  | [] => [[]]
  | c :: cs =>
    if c = sep then [] :: pieces sep cs
    else match pieces sep cs with
      | [] => [[c]]
      | p :: ps => (c :: p) :: ps

def split (sep : Char) (s : String) : List String :=
  (pieces sep s.toList).map String.ofList

def digits? (cs : List Char) : Option Nat :=
  if cs.isEmpty || !cs.all Char.isDigit then none
  else some (cs.foldl (fun n c => 10 * n + (c.toNat - '0'.toNat)) 0)

def nat64Bound : Nat := 18446744073709551616

def int64Bound : Nat := 9223372036854775808

/-- Decimal digits after an optional plus sign, below `bound`. -/
def natBelow? (bound : Nat) (s : String) : Option Nat :=
  let n? := match s.toList with
    | '+' :: cs => digits? cs
    | cs => digits? cs
  n?.filter (· < bound)

def int64? (s : String) : Option Int :=
  match s.toList with
  | '-' :: cs => (digits? cs).bind fun n => if n ≤ int64Bound then some (-(n : Int)) else none
  | _ => (natBelow? int64Bound s).map Int.ofNat

end Rulebook.Text
