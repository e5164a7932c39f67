import Rulebook.Script.Argument

namespace Rulebook.Script.Format

structure Directive where
  flags : List Char
  width : Nat
  precision : Option Nat
  letter : Char

def Directive.has (d : Directive) (c : Char) : Bool := d.flags.contains c

def zeros (n : Nat) : String := String.ofList (List.replicate n '0')

def Directive.fill (d : Directive) (byZeros : Bool) (sign digits : String) : String :=
  let missing := d.width - (sign.length + digits.length)
  let blanks := String.ofList (List.replicate missing ' ')
  if d.has '-' then sign ++ digits ++ blanks
  else if byZeros && d.has '0' then sign ++ zeros missing ++ digits
  else blanks ++ sign ++ digits

def Directive.sign (d : Directive) (negative : Bool) : String :=
  if negative then "-" else if d.has '+' then "+" else if d.has ' ' then " " else ""

/-- Digits of an integer, at least as many as the precision; zero has none at precision zero. -/
def Directive.digits (d : Directive) (base n : Nat) : String :=
  let s := if n = 0 && d.precision = some 0 then "" else String.ofList (Nat.toDigits base n)
  zeros (d.precision.getD 1 - s.length) ++ s

def upper (s : String) : String := String.ofList (s.toList.map Char.toUpper)

def Directive.integer (d : Directive) (n : Int64) : String :=
  let unsigned := n.toUInt64.toNat
  let byZeros := d.precision.isNone
  match d.letter with
  | 'u' => d.fill byZeros "" (d.digits 10 unsigned)
  | 'o' =>
    let s := d.digits 8 unsigned
    d.fill byZeros "" (if d.has '#' && s.toList.head? != some '0' then "0" ++ s else s)
  | 'x' => d.fill byZeros (if d.has '#' && unsigned != 0 then "0x" else "") (d.digits 16 unsigned)
  | 'X' =>
    d.fill byZeros (if d.has '#' && unsigned != 0 then "0X" else "") (upper (d.digits 16 unsigned))
  | _ => d.fill byZeros (d.sign (n < 0)) (d.digits 10 n.toInt.natAbs)

/-- A point is written before no digits only on demand. -/
def Directive.point (d : Directive) (whole fraction : String) : String :=
  if fraction.isEmpty && !d.has '#' then whole else whole ++ "." ++ fraction

def fixed (d : Directive) (b : Decimal.Binary) (places : Nat) : String :=
  let s := Decimal.padLeft (places + 1) '0' (toString (b.places places))
  d.point ((s.take (s.length - places)).toString) ((s.drop (s.length - places)).toString)

def mantissa (b : Decimal.Binary) (count : Nat) : String × Int :=
  if b.m = 0 then (zeros count, 0)
  else
    let r := b.significant count
    let s := toString r.digits
    ((s.take count).toString, r.leading)

def exponential (d : Directive) (b : Decimal.Binary) (places : Nat) : String :=
  let (s, e) := mantissa b (places + 1)
  d.point ((s.take 1).toString) ((s.drop 1).toString) ++ Decimal.exponentText 2 e

def dropZeros (s : String) : String :=
  String.ofList (s.toList.reverse.dropWhile (· = '0')).reverse

/-- The shorter of both notations: positional unless the exponent is below -4 or reaches the
number of digits. -/
def general (d : Directive) (b : Decimal.Binary) (count : Nat) : String :=
  let (s, e) := mantissa b count
  let trim (t : String) : String := if d.has '#' then t else dropZeros t
  if e < -4 || (count : Int) ≤ e then
    d.point ((s.take 1).toString) (trim (s.drop 1).toString) ++ Decimal.exponentText 2 e
  else if e < 0 then d.point "0" (trim (zeros (-e - 1).toNat ++ s))
  else d.point ((s.take (e.toNat + 1)).toString) (trim (s.drop (e.toNat + 1)).toString)

def hexText (n : Nat) : String := String.ofList (Nat.toDigits 16 n)

def hexadecimal (d : Directive) (b : Decimal.Binary) : String :=
  let tail (lead fraction : Nat) (e : Int) : String :=
    let (lead, digits) := match d.precision with
      | none => (lead, dropZeros (Decimal.padLeft 13 '0' (hexText fraction)))
      | some p =>
        if 13 ≤ p then (lead, Decimal.padLeft 13 '0' (hexText fraction) ++ zeros (p - 13))
        else
          let unit := Nat.pow 16 (13 - p)
          let n := Decimal.roundDiv (lead * Decimal.leastFull + fraction) unit
          let whole := Nat.pow 16 p
          (n / whole, if p = 0 then "" else Decimal.padLeft p '0' (hexText (n % whole)))
    d.point (toString lead) digits ++ (if e < 0 then "p-" else "p+") ++ toString e.natAbs
  if b.m = 0 then tail 0 0 0
  else if b.m < Decimal.leastFull then tail 0 b.m (-1022)
  else tail 1 (b.m - Decimal.leastFull) (b.q + 52)

def Directive.real (d : Directive) (x : Float) : String :=
  if x.isNaN || x.isInf then
    let s := if x.isNaN then "nan" else "inf"
    let s := if d.letter.isUpper then upper s else s
    d.fill false (d.sign (x.isNaN || x < 0)) s
  else
    let b := Decimal.Binary.ofFloat x
    let sign := d.sign (Decimal.isNegative x)
    let p := d.precision.getD 6
    match d.letter with
    | 'f' => d.fill true sign (fixed d b p)
    | 'e' => d.fill true sign (exponential d b p)
    | 'E' => d.fill true sign (upper (exponential d b p))
    | 'g' => d.fill true sign (general d b (max p 1))
    | 'G' => d.fill true sign (upper (general d b (max p 1)))
    | 'a' => d.fill true (sign ++ "0x") (hexadecimal d b)
    | _ => d.fill true (sign ++ "0X") (upper (hexadecimal d b))

def Directive.text (d : Directive) (s : ByteArray) : ByteArray :=
  let s := match d.precision with
    | some p => s.extract 0 p
    | none => s
  let blanks : ByteArray := ⟨Array.replicate (d.width - s.size) 32⟩
  if d.has '-' then s ++ blanks else blanks ++ s

def quotedBytes : List UInt8 → List Char
  | [] => []
  | b :: bs =>
    let c := Char.ofNat b.toNat
    if c = '"' || c = '\\' || c = '\n' then '\\' :: c :: quotedBytes bs
    else if b < 32 || b = 127 then
      let digits := toString b.toNat
      let digits := match bs with
        | d :: _ => if Pattern.isDigit d then Decimal.padLeft 3 '0' digits else digits
        | [] => digits
      '\\' :: digits.toList ++ quotedBytes bs
    else c :: quotedBytes bs

/-- A value as a literal that reads back as the same value. -/
def literal? : Value → Option ByteArray
  | .str s => some (Source.ofByteChars ('"' :: quotedBytes s.toList ++ ['"']))
  | .int n =>
    some (bytes (if n = Int64.minValue then "0x8000000000000000" else (Number.int n).text))
  | .float x =>
    some (bytes (if x.isNaN then "(0/0)"
      else if x.isInf then (if x < 0 then "-1e9999" else "1e9999")
      else (Directive.mk [] 0 none 'a').real x))
  | .nil => some (bytes "nil")
  | .bool b => some (Value.display (.bool b))
  | _ => none

def maxLength : Nat := 22

def twoDigits (cs : List Char) : List Char × List Char :=
  let ds := (cs.take 2).takeWhile Char.isDigit
  (ds, cs.drop ds.length)

/-- A directive after its percent sign, with the flags that its letter allows. -/
def directive? (allowed : List Char) (precise : Bool) (spec : List Char) : Option Directive :=
  let flags := spec.takeWhile (allowed.contains ·)
  let rest := spec.dropWhile (allowed.contains ·)
  let (width, precision, rest) :=
    if rest.head? = some '0' then ([], none, rest)
    else
      let (width, rest) := twoDigits rest
      match rest, precise with
      | '.' :: r, true =>
        let (p, r) := twoDigits r
        (width, some (Decimal.digitsValue p), r)
      | r, _ => (width, none, r)
  match rest with
  | [c] => if c.isAlpha then some ⟨flags, Decimal.digitsValue width, precision, c⟩ else none
  | _ => none

def convert (c : Call) (spec : List Char) (i : Nat) : Attempt ByteArray := do
  let checked (allowed : List Char) (precise : Bool) : Attempt Directive :=
    match directive? allowed precise spec with
    | some d => .ok d
    | none => Raised.error ("invalid conversion '%" ++ String.ofList spec ++ "' to 'format'")
  if c.args.size < i then c.bad i "no value"
  match spec.getLast? with
  | some 'c' =>
    let n ← c.int i
    let d ← checked ['-'] false
    return d.text ⟨#[n.toUInt64.toUInt8]⟩
  | some 'd' | some 'i' =>
    let n ← c.int i
    return bytes ((← checked ['-', '+', '0', ' '] true).integer n)
  | some 'u' =>
    let n ← c.int i
    return bytes ((← checked ['-', '0'] true).integer n)
  | some 'o' | some 'x' | some 'X' =>
    let n ← c.int i
    return bytes ((← checked ['-', '#', '0'] true).integer n)
  | some 'a' | some 'A' =>
    let d ← checked ['-', '+', '#', '0', ' '] true
    return bytes (d.real (← c.float i))
  | some 'f' | some 'e' | some 'E' | some 'g' | some 'G' =>
    let x ← c.float i
    return bytes ((← checked ['-', '+', '#', '0', ' '] true).real x)
  | some 'p' =>
    let d ← checked ['-'] false
    match c.get i with
    | .table r | .closure r => return d.text (bytes (Value.display.place r))
    | .routine _ | .signal _ | .str _ => return d.text (bytes (Value.display.place 0))
    | _ => return d.text (bytes "(null)")
  | some 'q' =>
    if spec.length ≠ 1 then Raised.error "specifier '%q' cannot have modifiers"
    else match literal? (c.get i) with
      | some s => return s
      | none => c.bad i "value has no literal form"
  | some 's' =>
    let s := (c.get i).display
    if spec.length = 1 then return s
    else if s.toList.contains 0 then c.bad i "string contains zeros"
    else
      let d ← checked ['-'] true
      return if d.precision.isNone && 100 ≤ s.size then s else d.text s
  | _ => Raised.error ("invalid conversion '%" ++ String.ofList spec ++ "' to 'format'")

def specOf (cs : List Char) : List Char × List Char :=
  let inSpec (c : Char) : Bool := c.isDigit || ['-', '+', ' ', '#', '.'].contains c
  let lead := cs.takeWhile inSpec
  let rest := cs.dropWhile inSpec
  (lead ++ rest.take 1, rest.drop 1)

/-- The pieces of a formatted text; `i` is the number of the argument that was used last. -/
def pieces (c : Call) : Nat → List Char → Nat → List ByteArray → Attempt (List ByteArray)
  | 0, _, _, acc | _, [], _, acc => .ok acc.reverse
  | fuel + 1, '%' :: '%' :: cs, i, acc => pieces c fuel cs i (⟨#[37]⟩ :: acc)
  | fuel + 1, '%' :: cs, i, acc => do
    let (spec, rest) := specOf cs
    if maxLength ≤ spec.length then Raised.error "invalid format string to 'format'"
    else pieces c fuel rest (i + 1) ((← convert c spec (i + 1)) :: acc)
  | fuel + 1, cs, i, acc =>
    let plain := cs.takeWhile (· != '%')
    pieces c fuel (cs.dropWhile (· != '%')) i (Source.ofByteChars plain :: acc)

def join (ps : List ByteArray) : ByteArray := ps.foldl (· ++ ·) ByteArray.empty

def format (c : Call) : Attempt ByteArray := do
  let s ← c.text 1
  return join (← pieces c (s.size + 1) (Source.byteChars s) 1 [])

end Rulebook.Script.Format
