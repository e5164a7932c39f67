import Rulebook.Decimal.Reading
import Rulebook.Source.Yaml.Tree

namespace Rulebook.Source.Yaml

namespace Plain

def isNull (s : String) : Bool := s ∈ ["null", "Null", "NULL", "~"]

def bool? (s : String) : Option Bool :=
  if s ∈ ["true", "True", "TRUE"] then some true
  else if s ∈ ["false", "False", "FALSE"] then some false
  else none

def isPlusOrMinus (c : Char) : Bool := c = '+' || c = '-'

def dropPlus : List Char → List Char
  | '+' :: cs => cs
  | cs => cs

def hasLeadingZero (cs : List Char) : Bool :=
  match cs with
  | c :: r => if isPlusOrMinus c then zeroFirst r else zeroFirst cs
  | [] => false
where
  zeroFirst : List Char → Bool
    | '0' :: d :: ds => (d :: ds).all Char.isDigit
    | _ => false

def inBase? (base : Nat) (cs : List Char) : Option Nat :=
  if cs.isEmpty then none
  else cs.foldlM (fun n c => do
    let d ← JsonText.hexValue? c
    if d < base then some (base * n + d) else none) 0

def magnitude? : List Char → Option Nat
  | '0' :: 'x' :: cs => inBase? 16 cs
  | '0' :: 'o' :: cs => inBase? 8 cs
  | '0' :: 'b' :: cs => inBase? 2 cs
  | cs => inBase? 10 cs

def integer? (cs : List Char) : Option Int :=
  if hasLeadingZero cs then none
  else match cs with
    | '-' :: r => (magnitude? r).map fun n => -(n : Int)
    | cs => (magnitude? (dropPlus cs)).map Int.ofNat

def nat? (s : String) : Option Nat :=
  match s.toList with
  | '-' :: _ => none
  | cs => (integer? cs).bind fun n => if n ≤ Json.nat64Max then some n.toNat else none

def finite? (x : Float) : Option Float := if x.isInf || x.isNaN then none else some x

def float? (cs : List Char) : Option Float :=
  match dropPlus cs with
  | '-' :: r =>
    if cs.head? = some '+' then none else ((Decimal.magnitude? r).bind finite?).map (- ·)
  | r => (Decimal.magnitude? r).bind finite?

/-- An infinity or a not-a-number, which no value stands for. -/
def isUnbounded (s : String) : Bool :=
  s ∈ [".inf", ".Inf", ".INF", "+.inf", "+.Inf", "+.INF", "-.inf", "-.Inf", "-.INF", ".nan", ".NaN",
    ".NAN"]

def floatValue? (s : String) : Option Json :=
  if isUnbounded s then some .null else (float? s.toList).map .float

def int128Bound : Int := 170141183460469231731687303715884105728

/-- Integers with more than 64 bits are no values up to 128 bits, and beyond them floating-point
numbers. -/
def integerValue? (s : String) : Option (Option Json) :=
  match integer? s.toList with
  | none => none
  | some n =>
    if Json.int64Min ≤ n ∧ n ≤ Json.nat64Max then some (some (.int n))
    else if -int128Bound ≤ n ∧ n < 2 * int128Bound then some none
    else none

def value? (s : String) : Option Json :=
  if s.isEmpty || isNull s then some .null
  else match bool? s with
    | some b => some (.bool b)
    | none =>
      match integerValue? s with
      | some v => v
      | none =>
        if hasLeadingZero s.toList then some (.str s)
        else (floatValue? s).or (some (.str s))

end Plain

def standard (name : String) : List Char := "tag:yaml.org,2002:".toList ++ name.toList

/-- A tag that makes what it stands in front of a value of a kind of its own. -/
def isOwn : Option (List Char) → Bool
  | some ('!' :: cs) => (decodeUtf8? (ofByteChars cs)).isSome
  | _ => false

def scalarValue? (tag : Option (List Char)) (style : Style) (s : String) : Option Json :=
  let untagged := if style = .plain then Plain.value? s else some (.str s)
  match tag with
  | none => untagged
  | some t =>
    if isOwn tag then none
    else if t = standard "bool" then (Plain.bool? s).map .bool
    else if t = standard "int" then (Plain.integerValue? s).join
    else if t = standard "float" then Plain.floatValue? s
    else if t = standard "null" then if Plain.isNull s then some .null else none
    else if t.head? = some '!' then untagged
    else some (.str s)

/-- Where a truth value or a number is wanted, a scalar must be plain, or literal with a tag that
says so. -/
def isLiteral (name : String) (tag : Option (List Char)) (style : Style) : Bool :=
  style = .plain || (style = .literal && tag = some (standard name))

def scalar (tag : Option (List Char)) (style : Style) (s : String) : Scalar where
  value := scalarValue? tag style s
  text := some s
  bool := if isLiteral "bool" tag style then Plain.bool? s else none
  nat := if isLiteral "int" tag style then Plain.nat? s else none
  isNull := style = .plain && (match tag with
    | none => s.isEmpty || Plain.isNull s
    | some t => t = standard "null" && Plain.isNull s)
  isEmpty := style = .plain && s.isEmpty

end Rulebook.Source.Yaml
