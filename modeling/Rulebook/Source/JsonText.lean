import Rulebook.Text.Blank
import Rulebook.Source.Node

namespace Rulebook.Source

/-- Bytes as characters of the same numbers. -/
def byteChars (bytes : ByteArray) : List Char := bytes.toList.map fun b => Char.ofNat b.toNat

def ofByteChars (cs : List Char) : ByteArray := ⟨(cs.map fun c => UInt8.ofNat c.toNat).toArray⟩

def decodeUtf8? (bytes : ByteArray) : Option String := String.fromUTF8? bytes

namespace JsonText

def isBlank (c : Char) : Bool := c = ' ' || c = '\n' || c = '\t' || c = '\r'

def skipBlanks (cs : List Char) : List Char := cs.dropWhile isBlank

def powerOfTen (k : Nat) : Float := Float.ofScientific 1 false k

/-- A significand scaled by a power of ten, with one rounding for the significand and one for each
step of the scaling. None when it is out of range. -/
def scaled? (significand : Nat) (exponent : Int) : Option Float :=
  go 4 (Float.ofNat significand) exponent
where
  go : Nat → Float → Int → Option Float
    | 0, _, _ => some 0
    | n + 1, x, e =>
      if e.natAbs ≤ 308 then
        if 0 ≤ e then
          let y := x * powerOfTen e.natAbs
          if y.isInf then none else some y
        else some (x / powerOfTen e.natAbs)
      else if x == 0 then some x
      else if 0 ≤ e then none
      else go n (x / powerOfTen 308) (e + 308)

/-- The digits of a significand that fit into 64 bits, and how many digits follow them. -/
def significand (n : Nat) : List Char → Nat × Nat
  | [] => (n, 0)
  | c :: cs =>
    let m := 10 * n + (c.toNat - '0'.toNat)
    if m < Text.nat64Bound then significand m cs else (n, cs.length + 1)

/-- Digits of an exponent as a number; none if it exceeds 31 bits on the way. -/
def exponentValue (cs : List Char) : Option Nat :=
  cs.foldl (fun n? c => n?.bind fun n =>
    let m := 10 * n + (c.toNat - '0'.toNat)
    if m < 0x80000000 then some m else none) (some 0)

structure Exponent where
  negative : Bool
  digits : List Char

structure Numeral where
  negative : Bool
  whole : List Char
  fraction : List Char
  exponent : Option Exponent

def Numeral.signed (n : Numeral) (x : Float) : Float := if n.negative then -x else x

def Numeral.float? (n : Numeral) : Option Float :=
  let (s, dropped) := significand 0 n.whole
  let (s, left) := significand s n.fraction
  let e : Int := dropped - (n.fraction.length - left : Nat)
  match n.exponent with
  | none => (scaled? s e).map n.signed
  | some x =>
    match exponentValue x.digits with
    | none => if s != 0 && !x.negative then none else some (n.signed 0)
    | some k => (scaled? s (if x.negative then e - k else e + k)).map n.signed

/-- The value of a numeral; none if it is out of range. A whole number within 64 bits is an
integer, minus zero excepted. -/
def Numeral.value? (n : Numeral) : Option Json :=
  let (s, dropped) := significand 0 n.whole
  if n.fraction.isEmpty && n.exponent.isNone && dropped = 0 then
    if !n.negative then some (.int s)
    else if s = 0 || Text.int64Bound < s then some (.float (-(Float.ofNat s)))
    else some (.int (-(s : Int)))
  else n.float?.map .float

def digitsOf (cs : List Char) : List Char × List Char :=
  (cs.takeWhile Char.isDigit, cs.dropWhile Char.isDigit)

def fraction? : List Char → Option (List Char × List Char)
  | '.' :: cs =>
    let (ds, r) := digitsOf cs
    if ds.isEmpty then none else some (ds, r)
  | cs => some ([], cs)

def exponent? : List Char → Option (Option Exponent × List Char)
  | c :: cs =>
    if c = 'e' || c = 'E' then
      let (negative, cs) := match cs with
        | '-' :: r => (true, r)
        | '+' :: r => (false, r)
        | r => (false, r)
      let (ds, r) := digitsOf cs
      if ds.isEmpty then none else some (some ⟨negative, ds⟩, r)
    else some (none, c :: cs)
  | [] => some (none, [])

/-- A numeral at the start of a text. It has no superfluous leading zero. -/
def numeral? (cs : List Char) : Option (Numeral × List Char) := do
  let (negative, cs) := match cs with
    | '-' :: r => (true, r)
    | r => (false, r)
  let (whole, cs) := digitsOf cs
  match whole with
  | [] => none
  | '0' :: _ :: _ => none
  | _ =>
    let (fraction, cs) ← fraction? cs
    let (exponent, cs) ← exponent? cs
    return (⟨negative, whole, fraction, exponent⟩, cs)

def hexValue? (c : Char) : Option Nat :=
  if c.isDigit then some (c.toNat - 48)
  else if 'a' ≤ c && c ≤ 'f' then some (c.toNat - 87)
  else if 'A' ≤ c && c ≤ 'F' then some (c.toNat - 55)
  else none

def hex4? (a b c d : Char) : Option Nat := do
  return ((← hexValue? a) * 16 + (← hexValue? b)) * 256 + (← hexValue? c) * 16 + (← hexValue? d)

def utf8Chars (n : Nat) : List Char :=
  (String.singleton (Char.ofNat n)).toUTF8.toList.map fun b => Char.ofNat b.toNat

def escape? : Char → Option Char
  | '"' => some '"'
  | '\\' => some '\\'
  | '/' => some '/'
  | 'b' => some '\x08'
  | 'f' => some '\x0c'
  | 'n' => some '\n'
  | 'r' => some '\r'
  | 't' => some '\t'
  | _ => none

/-- The rest of a string after its opening quote: its bytes in reverse, and what follows it. The
bytes are none when half of a surrogate pair stands alone. -/
def string? (fuel : Nat) (cs : List Char) (acc : Option (List Char)) :
    Option (Option (List Char) × List Char) :=
  match fuel, cs with
  | 0, _ | _, [] => none
  | _, '"' :: r => some (acc, r)
  | fuel + 1, '\\' :: 'u' :: a :: b :: c :: d :: r => do
    let n ← hex4? a b c d
    if 0xdc00 ≤ n && n ≤ 0xdfff then string? fuel r none
    else if 0xd800 ≤ n && n ≤ 0xdbff then
      match r with
      | '\\' :: 'u' :: a :: b :: c :: d :: r' =>
        let m ← hex4? a b c d
        if 0xdc00 ≤ m && m ≤ 0xdfff then
          let n := 0x10000 + (n - 0xd800) * 0x400 + (m - 0xdc00)
          string? fuel r' (acc.map ((utf8Chars n).reverse ++ ·))
        else string? fuel r none
      | _ => string? fuel r none
    else string? fuel r (acc.map ((utf8Chars n).reverse ++ ·))
  | fuel + 1, '\\' :: c :: r => do
    let e ← escape? c
    string? fuel r (acc.map (e :: ·))
  | fuel + 1, c :: r => if c.toNat < 32 then none else string? fuel r (acc.map (c :: ·))

theorem string?_quote (fuel : Nat) (acc : Option (List Char)) (r : List Char) :
    string? (fuel + 1) ('"' :: r) acc = some (acc, r) := by
  rw [string?]
  exact Nat.succ_ne_zero fuel

def stringNode : Option (List Char) → Node
  | none => .unreadable
  | some bytes =>
    match decodeUtf8? (ofByteChars bytes.reverse) with
    | some s => .ofValue (.str s)
    | none => .unreadable

def literal? (cs : List Char) : Option (Node × List Char) :=
  match cs with
  | 'n' :: 'u' :: 'l' :: 'l' :: r => some (.ofValue .null, r)
  | 't' :: 'r' :: 'u' :: 'e' :: r => some (.ofValue (.bool true), r)
  | 'f' :: 'a' :: 'l' :: 's' :: 'e' :: r => some (.ofValue (.bool false), r)
  | _ => do
    let (n, r) ← numeral? cs
    match n.value? with
    | some v => some (.ofValue v, r)
    | none => some (.unreadable, r)

mutual

/-- A value at the start of a text, blanks before it allowed. Each call takes a character or a
level of fuel. -/
def node? (fuel : Nat) (cs : List Char) : Option (Node × List Char) :=
  match fuel with
  | 0 => none
  | fuel + 1 =>
    match skipBlanks cs with
    | '[' :: r =>
      match skipBlanks r with
      | ']' :: r => some (.list [], r)
      | r => (items? fuel r []).map fun (ns, r) => (.list ns, r)
    | '\x7b' :: r =>
      match skipBlanks r with
      | '\x7d' :: r => some (.map [], r)
      | r => (entries? fuel r []).map fun (es, r) => (.map es, r)
    | '"' :: r => (string? (r.length + 1) r (some [])).map fun (s, r) => (stringNode s, r)
    | r => literal? r

def items? (fuel : Nat) (cs : List Char) (acc : List Node) : Option (List Node × List Char) :=
  match fuel with
  | 0 => none
  | fuel + 1 => do
    let (n, r) ← node? fuel cs
    match skipBlanks r with
    | ',' :: r => items? fuel r (n :: acc)
    | ']' :: r => some ((n :: acc).reverse, r)
    | _ => none

def entries? (fuel : Nat) (cs : List Char) (acc : List (Node × Node)) :
    Option (List (Node × Node) × List Char) :=
  match fuel with
  | 0 => none
  | fuel + 1 =>
    match skipBlanks cs with
    | '"' :: r => do
      let (k, r) ← string? (r.length + 1) r (some [])
      match skipBlanks r with
      | ':' :: r =>
        let (v, r) ← node? fuel r
        let acc := (stringNode k, v) :: acc
        match skipBlanks r with
        | ',' :: r => entries? fuel r acc
        | '\x7d' :: r => some (acc.reverse, r)
        | _ => none
      | _ => none
    | _ => none

end

theorem node?_zero (cs : List Char) : node? 0 cs = none := by rw [node?]

theorem items?_zero (cs : List Char) (acc : List Node) : items? 0 cs acc = none := by rw [items?]

theorem entries?_zero (cs : List Char) (acc : List (Node × Node)) : entries? 0 cs acc = none := by
  rw [entries?]

/-- Lists, mappings and records may be 127 levels deep; a record may be a list of its fields. -/
def grammar : Node.Grammar := ⟨true, 127⟩

def parse? (bytes : ByteArray) : Option Node := do
  let cs := byteChars bytes
  let (n, r) ← node? (cs.length + 2) cs
  if (skipBlanks r).isEmpty then some n else none

def value? (bytes : ByteArray) : Option Json := do
  (← parse? bytes).value? grammar.depth

end JsonText

end Rulebook.Source
