import Rulebook.Script.Value

namespace Rulebook.Script

inductive Token where
  | name (s : String)
  | sign (s : String)
  | number (n : Number)
  | str (s : ByteArray)
  | finish

def Token.text : Token → String
  | name s => s
  | sign s => s
  | number n => n.text
  | str s => readable s
  | finish => "<eof>"

/-- A token and the line on which it ends. -/
structure Located where
  token : Token
  line : Nat

inductive ChunkFault where
  | malformed (message : String)
  /-- it is nested too deep to be read -/
  | tooDeep

namespace Token

def reserved : List String :=
  ["and", "break", "do", "else", "elseif", "end", "false", "for", "function", "goto", "if", "in",
    "local", "nil", "not", "or", "repeat", "return", "then", "true", "until", "while"]

def malformed {α : Type} (message near : String) : Except ChunkFault α :=
  .error (.malformed (message ++ " near '" ++ near ++ "'"))

def dropBreak : List Char → List Char
  | '\r' :: '\n' :: cs | '\n' :: '\r' :: cs => cs
  | _ :: cs => cs
  | [] => []

def isBreak (c : Char) : Bool := c = '\n' || c = '\r'

def level? : List Char → Option Nat
  | '[' :: _ => some 0
  | '=' :: cs => (level? cs).map (· + 1)
  | _ => none

def closes : Nat → List Char → Bool
  | 0, ']' :: _ => true
  | n + 1, '=' :: cs => closes n cs
  | _, _ => false

/-- The contents of a long bracket in reverse, the rest of the text and the line reached. Line
breaks within become line feeds. -/
def long (fuel level : Nat) (cs acc : List Char) (line : Nat) :
    Option (List Char × List Char × Nat) :=
  match fuel, cs with
  | 0, _ | _, [] => none
  | fuel + 1, c :: r =>
    if c = ']' && closes level r then some (acc, r.drop (level + 1), line)
    else if isBreak c then long fuel level (dropBreak (c :: r)) ('\n' :: acc) (line + 1)
    else long fuel level r (c :: acc) line

def longText? (cs : List Char) (line : Nat) : Option (List Char × List Char × Nat) :=
  (level? cs).bind fun level =>
    let body := cs.drop (level + 1)
    let (body, line) := match body with
      | c :: r => if isBreak c then (dropBreak (c :: r), line + 1) else (body, line)
      | [] => (body, line)
    (long (body.length + 1) level body [] line).map fun (acc, r, line) => (acc.reverse, r, line)

def utf8 (c : Char) : List UInt8 := (String.singleton c).toUTF8.toList

/-- A code point below `2^31` in the general form of UTF-8, of up to six bytes. -/
def codeBytes (n : Nat) : List UInt8 :=
  let rec tail : Nat → Nat → List UInt8 → List UInt8
    | 0, _, acc => acc
    | k + 1, n, acc => tail k (n / 64) (UInt8.ofNat (128 + n % 64) :: acc)
  if n < 0x80 then [UInt8.ofNat n]
  else if n < 0x800 then UInt8.ofNat (0xc0 + n / 64) :: tail 1 n []
  else if n < 0x10000 then UInt8.ofNat (0xe0 + n / 0x1000) :: tail 2 n []
  else if n < 0x200000 then UInt8.ofNat (0xf0 + n / 0x40000) :: tail 3 n []
  else if n < 0x4000000 then UInt8.ofNat (0xf8 + n / 0x1000000) :: tail 4 n []
  else UInt8.ofNat (0xfc + n / 0x40000000) :: tail 5 n []

def simpleEscape? : Char → Option UInt8
  | 'a' => some 7
  | 'b' => some 8
  | 'f' => some 12
  | 'n' => some 10
  | 'r' => some 13
  | 't' => some 9
  | 'v' => some 11
  | '\\' => some 92
  | '"' => some 34
  | '\'' => some 39
  | _ => none

def decimalEscape (cs : List Char) : Nat × List Char :=
  let ds := (cs.take 3).takeWhile Char.isDigit
  (Decimal.digitsValue ds, cs.drop ds.length)

/-- The bytes of a quoted text in reverse after its opening quote, the rest and the line. -/
def quoted (fuel : Nat) (q : Char) (cs : List Char) (acc : List UInt8) (line : Nat) :
    Except ChunkFault (List UInt8 × List Char × Nat) :=
  match fuel, cs with
  | 0, _ | _, [] => malformed "unfinished string" "<eof>"
  | fuel + 1, '\\' :: cs =>
    match cs with
    | [] => malformed "unfinished string" "<eof>"
    | 'x' :: r =>
      match r with
      | a :: b :: r =>
        match Number.hexDigit? a, Number.hexDigit? b with
        | some m, some n => quoted fuel q r (UInt8.ofNat (16 * m + n) :: acc) line
        | _, _ => malformed "hexadecimal digit expected" "\\x"
      | _ => malformed "hexadecimal digit expected" "\\x"
    | 'z' :: r =>
      let blanks := r.takeWhile Number.isSpace
      let breaks := (blanks.filter (· = '\n')).length + (blanks.filter (· = '\r')).length
      quoted fuel q (r.dropWhile Number.isSpace) acc (line + breaks)
    | 'u' :: '\x7b' :: r =>
      let ds := r.takeWhile Number.isHexDigit
      let n := Number.hexValue (ds.take 16)
      if ds.isEmpty then malformed "hexadecimal digit expected" "\\u"
      else if 0x80000000 ≤ n || 16 < ds.length && 0x80000000 ≤ Number.hexValue ds then
        malformed "UTF-8 value too large" "\\u"
      else match r.dropWhile Number.isHexDigit with
        | '\x7d' :: r => quoted fuel q r ((codeBytes n).reverse ++ acc) line
        | _ => malformed "missing closing brace" "\\u"
    | 'u' :: _ => malformed "missing opening brace" "\\u"
    | c :: r =>
      if isBreak c then quoted fuel q (dropBreak (c :: r)) (10 :: acc) (line + 1)
      else if c.isDigit then
        let (n, r) := decimalEscape (c :: r)
        if n < 256 then quoted fuel q r (UInt8.ofNat n :: acc) line
        else malformed "decimal escape too large" "\\"
      else match simpleEscape? c with
        | some b => quoted fuel q r (b :: acc) line
        | none => malformed "invalid escape sequence" "\\"
  | fuel + 1, c :: r =>
    if c = q then .ok (acc, r, line)
    else if isBreak c then malformed "unfinished string" (readable ⟨acc.reverse.toArray⟩)
    else quoted fuel q r ((utf8 c).reverse ++ acc) line

/-- The characters of a numeral: digits, points, and a sign after the mark of an exponent. -/
def numeral (hex : Bool) : List Char → List Char × List Char
  | c :: s :: cs =>
    let mark := if hex then c = 'p' || c = 'P' else c = 'e' || c = 'E'
    if mark && (s = '+' || s = '-') then
      let (t, r) := numeral hex cs
      (c :: s :: t, r)
    else if mark || Number.isHexDigit c || c = '.' then
      let (t, r) := numeral hex (s :: cs)
      (c :: t, r)
    else ([], c :: s :: cs)
  | [c] =>
    let mark := if hex then c = 'p' || c = 'P' else c = 'e' || c = 'E'
    if mark || Number.isHexDigit c || c = '.' then ([c], []) else ([], [c])
  | [] => ([], [])

def isHex : List Char → Bool
  | '0' :: x :: _ => x = 'x' || x = 'X'
  | _ => false

def readNumber (cs : List Char) : Except ChunkFault (Number × List Char) :=
  let hex := isHex cs
  let lead := if hex then 2 else 1
  let (t, r) := numeral hex (cs.drop lead)
  let t := cs.take lead ++ t
  let touches := match r with
    | c :: _ => Text.isIdentStart c
    | [] => false
  match Number.parse? t, touches with
  | some n, false => .ok (n, r)
  | _, _ => malformed "malformed number" (String.ofList (t ++ r.take 1))

/-- Signs of more than one character; a longer one comes before those that it begins with. -/
def longSigns : List (List Char) :=
  [['.', '.', '.'], ['.', '.'], ['=', '='], ['~', '='], ['<', '='], ['>', '='], ['<', '<'],
    ['>', '>'], ['/', '/'], [':', ':']]

def sign? (cs : List Char) : Option (List Char) := longSigns.find? (·.isPrefixOf cs)

/-- The tokens of a text, which starts on a given line, in reverse. -/
def scan (fuel : Nat) (cs : List Char) (line : Nat) (acc : List Located) :
    Except ChunkFault (List Located) :=
  match fuel, cs with
  | 0, _ | _, [] => .ok (⟨finish, line⟩ :: acc)
  | fuel + 1, c :: r =>
    if isBreak c then scan fuel (dropBreak (c :: r)) (line + 1) acc
    else if Number.isSpace c then scan fuel r line acc
    else if Text.isIdentStart c then
      let word := String.ofList (c :: r.takeWhile Text.isIdentRest)
      let token := if word ∈ reserved then sign word else name word
      scan fuel (r.dropWhile Text.isIdentRest) line (⟨token, line⟩ :: acc)
    else if c.isDigit || (c = '.' && (r.head?.any Char.isDigit)) then do
      let (n, r) ← readNumber (c :: r)
      scan fuel r line (⟨number n, line⟩ :: acc)
    else if c = '"' || c = '\'' then do
      let (t, r, line) ← quoted (r.length + 1) c r [] line
      scan fuel r line (⟨str ⟨t.reverse.toArray⟩, line⟩ :: acc)
    else match c, r with
      | '-', '-' :: r =>
        match r with
        | '[' :: s =>
          if (level? s).isSome then
            match longText? s line with
            | some (_, r, line) => scan fuel r line acc
            | none => malformed "unfinished long comment" "<eof>"
          else scan fuel (r.dropWhile (!isBreak ·)) line acc
        | r => scan fuel (r.dropWhile (!isBreak ·)) line acc
      | '[', r =>
        if (level? r).isSome then
          match longText? r line with
          | some (t, r, line) =>
            scan fuel r line (⟨str (bytes (String.ofList t)), line⟩ :: acc)
          | none => malformed "unfinished long string" "<eof>"
        else if r.head? = some '=' then malformed "invalid long string delimiter" "[="
        else scan fuel r line (⟨sign "[", line⟩ :: acc)
      | c, r =>
        match sign? (c :: r) with
        | some s => scan fuel ((c :: r).drop s.length) line (⟨sign (String.ofList s), line⟩ :: acc)
        | none => scan fuel r line (⟨sign (String.singleton c), line⟩ :: acc)

def all (text : String) : Except ChunkFault (List Located) :=
  (scan (text.length + 1) text.toList 1 []).map List.reverse

end Token

end Rulebook.Script
