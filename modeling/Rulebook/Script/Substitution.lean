import Rulebook.Script.Argument

namespace Rulebook.Script

structure Substitution where
  walk : Pattern.Walk
  replacement : Value
  /-- the greatest number of replacements -/
  most : Int
  made : Nat
  out : ByteArray
  /-- nothing more is replaced -/
  ended : Bool

def captured : Pattern.Captured → Value
  | .text s => .str s
  | .position n => .ofNat n

def inPattern {α : Type} : Except Pattern.Fault α → Attempt α
  | .ok a => .ok a
  | .error f => Raised.error f.message

namespace Substitution

def rest (s : Substitution) : ByteArray := s.walk.subject.extract s.walk.place s.walk.subject.size

/-- Goes on to the next match that is to be replaced. -/
def next (s : Substitution) : Nat → Attempt (Option Pattern.Found × Substitution)
  | 0 => .ok (none, s)
  | fuel + 1 => do
    if s.ended || s.most ≤ s.made then return (none, s)
    let w := s.walk
    match ← inPattern (Pattern.matchAt w.subject w.pattern.items w.place) with
    | some m =>
      if some m.stop = w.last then pass s fuel
      else
        return (some m, { s with
          walk := { w with place := m.stop, last := some m.stop }
          made := s.made + 1
          ended := w.pattern.anchor })
    | none => pass s fuel
where
  /-- Keeps one byte as it is. -/
  pass (s : Substitution) (fuel : Nat) : Attempt (Option Pattern.Found × Substitution) :=
    match s.walk.subject[s.walk.place]? with
    | none => .ok (none, { s with ended := true })
    | some b =>
      next { s with
        walk := { s.walk with place := s.walk.place + 1 }
        out := s.out.push b
        ended := s.walk.pattern.anchor } fuel

def put (s : Substitution) (m : Pattern.Found) (v : Value) : Attempt Substitution :=
  if !v.holds then .ok { s with out := s.out ++ s.walk.subject.extract m.start m.stop }
  else match v.toBytes? with
    | some t => .ok { s with out := s.out ++ t }
    | none => Raised.error ("invalid replacement value (a " ++ v.typeName ++ ")")

def expand (subject : ByteArray) (m : Pattern.Found) : List UInt8 → ByteArray → Attempt ByteArray
  | [], out => .ok out
  | [b], out =>
    if b = 37 then Raised.error "invalid use of '%' in replacement string" else .ok (out.push b)
  | b :: d :: bs, out =>
    if b = 37 then
      if d = 37 then expand subject m bs (out.push d)
      else if d = 48 then expand subject m bs (out ++ subject.extract m.start m.stop)
      else if Pattern.isDigit d then do
        let c ← inPattern (m.nth subject (d - 48).toNat)
        expand subject m bs (out ++ (captured c).display)
      else Raised.error "invalid use of '%' in replacement string"
    else expand subject m (d :: bs) (out.push b)

/-- The values of a match that its replacement is found by. -/
def values (s : Substitution) (m : Pattern.Found) : Attempt (List Value) := do
  return (← inPattern (m.values s.walk.subject)).map captured

def run (h : Heap) (s : Substitution) : Nat → Attempt Substitution
  | 0 => .ok s
  | fuel + 1 => do
    match ← s.next (s.walk.subject.size + 2) with
    | (none, s) => return s
    | (some m, s) =>
      match s.replacement with
      | .table r =>
        let k ← inPattern (m.nth s.walk.subject 1)
        run h (← s.put m ((h.table r).get (captured k))) fuel
      | v =>
        let text := (v.toBytes?.getD ByteArray.empty).toList
        run h { s with out := ← expand s.walk.subject m text s.out } fuel

def result (s : Substitution) (h : Heap) : List Value × Heap :=
  let (v, h) := h.newText (s.out ++ s.rest)
  ([v, .ofNat s.made], h)

end Substitution

end Rulebook.Script
