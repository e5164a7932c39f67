import Rulebook.Script.Argument

namespace Rulebook.Script.Packing

inductive Kind where
  | signed | unsigned | single | double | fixed | counted | terminated | padding | alignment | none
deriving DecidableEq

structure Style where
  little : Bool
  align : Nat

structure Slot where
  kind : Kind
  size : Nat
  /-- bytes left free in front -/
  gap : Nat

def maxSize : Nat := 16

def maxFixed : Nat := 64 * 1024 * 1024

/-- No size or place reaches this. -/
def sizeBound : Nat := 0x80000000

def valuesOf (bytes : Nat) : Nat := Nat.pow 256 bytes

def size? (cs : List Char) : Option Nat × List Char :=
  let ds := cs.takeWhile Char.isDigit
  (if ds.isEmpty then none else some (min (Decimal.digitsValue ds) sizeBound), cs.drop ds.length)

def limited (cs : List Char) (standard : Nat) : Attempt (Nat × List Char) :=
  let (n, cs) := size? cs
  let n := n.getD standard
  if n = 0 || maxSize < n then
    Raised.error
      ("integral size (" ++ toString n ++ ") out of limits [1," ++ toString maxSize ++ "]")
  else .ok (n, cs)

def readOption (s : Style) (c : Char) (cs : List Char) :
    Attempt (Kind × Nat × Style × List Char) :=
  match c with
  | 'b' => .ok (.signed, 1, s, cs)
  | 'B' => .ok (.unsigned, 1, s, cs)
  | 'h' => .ok (.signed, 2, s, cs)
  | 'H' => .ok (.unsigned, 2, s, cs)
  | 'l' | 'j' => .ok (.signed, 8, s, cs)
  | 'L' | 'J' | 'T' => .ok (.unsigned, 8, s, cs)
  | 'f' => .ok (.single, 4, s, cs)
  | 'n' | 'd' => .ok (.double, 8, s, cs)
  | 'i' => (limited cs 4).map fun (n, cs) => (.signed, n, s, cs)
  | 'I' => (limited cs 4).map fun (n, cs) => (.unsigned, n, s, cs)
  | 's' => (limited cs 8).map fun (n, cs) => (.counted, n, s, cs)
  | 'c' =>
    match size? cs with
    | (some n, cs) => .ok (.fixed, n, s, cs)
    | (none, _) => Raised.error "missing size for format option 'c'"
  | 'z' => .ok (.terminated, 0, s, cs)
  | 'x' => .ok (.padding, 1, s, cs)
  | 'X' => .ok (.alignment, 0, s, cs)
  | ' ' => .ok (.none, 0, s, cs)
  | '<' | '=' => .ok (.none, 0, { s with little := true }, cs)
  | '>' => .ok (.none, 0, { s with little := false }, cs)
  | '!' => (limited cs 8).map fun (n, cs) => (.none, 0, { s with align := n }, cs)
  | c => Raised.error ("invalid format option '" ++ String.singleton c ++ "'")

/-- The option at the start of a layout, with the gap that its alignment asks for. -/
def next (call : Call) (s : Style) (total : Nat) (c : Char) (cs : List Char) :
    Attempt (Slot × Style × List Char) := do
  let (kind, size, s, cs) ← readOption s c cs
  let (align, s, cs) ←
    if kind = .alignment then
      match cs with
      | [] => call.bad 1 "invalid next option for option 'X'"
      | c :: cs => do
        let (k, align, s, cs) ← readOption s c cs
        if k = .fixed || align = 0 then call.bad 1 "invalid next option for option 'X'"
        else .ok (align, s, cs)
    else .ok (size, s, cs)
  if align ≤ 1 || kind = .fixed then return (⟨kind, size, 0⟩, s, cs)
  else
    let align := min align s.align
    if Nat.pow 2 align.log2 ≠ align then call.bad 1 "format asks for alignment not power of 2"
    else return (⟨kind, size, (align - total % align) % align⟩, s, cs)

def ordered (s : Style) (bs : List UInt8) : List UInt8 := if s.little then bs else bs.reverse

def lowBytes (n : Int) : Nat → List UInt8
  | 0 => []
  | k + 1 => UInt8.ofNat (n % 256).toNat :: lowBytes (n / 256) k

def natOf : List UInt8 → Nat
  | [] => 0
  | b :: bs => b.toNat + 256 * natOf bs

def zeros (n : Nat) : List UInt8 := List.replicate n 0

def packOne (c : Call) (s : Style) (o : Slot) (i : Nat) : Attempt (List UInt8) := do
  match o.kind with
  | .signed =>
    let n := (← c.int i).toInt
    let half : Int := (valuesOf o.size / 2 : Nat)
    if o.size < 8 && (n < -half || half ≤ n) then
      c.bad i "integer overflow"
    else return ordered s (lowBytes n o.size)
  | .unsigned =>
    let n := (← c.int i).toUInt64.toNat
    if o.size < 8 && valuesOf o.size ≤ n then c.bad i "unsigned overflow"
    else return ordered s (lowBytes n o.size)
  | .single => return ordered s (lowBytes (← c.float i).toFloat32.toBits.toNat 4)
  | .double => return ordered s (lowBytes (← c.float i).toBits.toNat 8)
  | .fixed =>
    let t ← c.text i
    if o.size < t.size then c.bad i "string longer than given size"
    else if maxFixed < o.size then .error (.value Raised.outOfMemory)
    else return t.toList ++ zeros (o.size - t.size)
  | .counted =>
    let t ← c.text i
    if o.size < 8 && valuesOf o.size ≤ t.size then
      c.bad i "string length does not fit in given size"
    else return ordered s (lowBytes t.size o.size) ++ t.toList
  | .terminated =>
    let t ← c.text i
    if t.toList.contains 0 then c.bad i "string contains zeros" else return t.toList ++ [0]
  | _ => return zeros o.size

def takesValue : Kind → Bool
  | .padding | .alignment | .none => false
  | _ => true

def packAll (c : Call) : Nat → Style → List Char → Nat → List UInt8 → Attempt (List UInt8)
  | 0, _, _, _, acc | _, _, [], _, acc => .ok acc
  | fuel + 1, s, ch :: cs, i, acc => do
    let (o, s, cs) ← next c s acc.length ch cs
    let bs ← packOne c s o i
    packAll c fuel s cs (if takesValue o.kind then i + 1 else i) (acc ++ zeros o.gap ++ bs)

def layout (c : Call) : Attempt (List Char) := (c.text 1).map Source.byteChars

def start : Style := ⟨true, 1⟩

def pack (c : Call) : Attempt ByteArray := do
  let cs ← layout c
  return ⟨(← packAll c (cs.length + 1) start cs 2 []).toArray⟩

def sizeAll (c : Call) : Nat → Style → List Char → Nat → Attempt Nat
  | 0, _, _, total | _, _, [], total => .ok total
  | fuel + 1, s, ch :: cs, total => do
    let (o, s, cs) ← next c s total ch cs
    if o.kind = .counted || o.kind = .terminated then c.bad 1 "variable-length format"
    else if sizeBound - 1 < total + o.gap + o.size then c.bad 1 "format result too large"
    else sizeAll c fuel s cs (total + o.gap + o.size)

def packsize (c : Call) : Attempt Nat := do
  let cs ← layout c
  sizeAll c (cs.length + 1) start cs 0

def signedOf (n size : Nat) : Int :=
  if valuesOf size / 2 ≤ n then (n : Int) - valuesOf size else n

/-- The value of an option at a place of the data, and how many bytes it takes. -/
def unpackOne (c : Call) (s : Style) (o : Slot) (data : ByteArray) (i : Nat) :
    Attempt (Value × Nat) := do
  let bs := ordered s (data.extract i (i + o.size)).toList
  match o.kind with
  | .signed | .unsigned =>
    let n := natOf bs
    let v := if o.kind = .signed then signedOf n o.size else n
    let fits :=
      if o.kind = .signed then Json.int64Min ≤ v && v ≤ Json.int64Max else v ≤ Json.nat64Max
    if 8 < o.size && !fits then
      Raised.error (toString o.size ++ "-byte integer does not fit into Lua Integer")
    else return (.int (Int64.ofInt v), o.size)
  | .single =>
    return (.float (Float32.ofBits (UInt32.ofNat (natOf bs))).toFloat, o.size)
  | .double => return (.float (Float.ofBits (UInt64.ofNat (natOf bs))), o.size)
  | .fixed => return (.str (data.extract i (i + o.size)), o.size)
  | .counted =>
    let n := natOf bs
    if data.size < i + o.size + n then c.bad 2 "data string too short"
    else return (.str (data.extract (i + o.size) (i + o.size + n)), o.size + n)
  | .terminated =>
    let t := (data.extract i data.size).toList.takeWhile (· != 0)
    if data.size ≤ i + t.length then c.bad 2 "unfinished string for format 'z'"
    else return (.str ⟨t.toArray⟩, t.length + 1)
  | _ => return (.nil, o.size)

def unpackAll (c : Call) (data : ByteArray) :
    Nat → Style → List Char → Nat → List Value → Attempt (List Value)
  | 0, _, _, i, acc | _, _, [], i, acc => .ok ((Value.ofNat (i + 1) :: acc).reverse)
  | fuel + 1, s, ch :: cs, i, acc => do
    let (o, s, cs) ← next c s i ch cs
    if data.size < i + o.gap + o.size then c.bad 2 "data string too short"
    else
      let (v, n) ← unpackOne c s o data (i + o.gap)
      unpackAll c data fuel s cs (i + o.gap + n) (if takesValue o.kind then v :: acc else acc)

def unpack (c : Call) : Attempt (List Value) := do
  let cs ← layout c
  let data ← c.text 2
  let i := max 1 (relative (← c.intOr 3 1) data.size)
  if (data.size : Int) < i - 1 then c.bad 3 "initial position out of string"
  else unpackAll c data (cs.length + 1) start cs (i.toNat - 1) []

end Rulebook.Script.Packing
