import Rulebook.Text.Blank

namespace Rulebook.Ruleset.Version

def compareText (a b : String) : Ordering := compareOfLessAndEq a b

/-- A segment that is a number: decimal digits after an optional plus sign, within 64 bits. -/
def number? (segment : String) : Option Nat := Text.natBelow? Text.nat64Bound segment

def compareSegment (a b : String) : Ordering :=
  match number? a, number? b with
  | some m, some n => compareOfLessAndEq m n
  | some _, none => .gt
  | none, some _ => .lt
  | none, none => compareText a b

def compareSegments : List String → List String → Ordering
  | [], [] => .eq
  | _ :: _, [] => .gt
  | [], _ :: _ => .lt
  | a :: as, b :: bs => (compareSegment a b).then (compareSegments as bs)

/-- Segments are compared from the left: numbers by value, texts by their bytes, and a number is
above a text. Of two versions that agree so far the longer is greater; versions that differ in
spelling only are ordered as texts. -/
def compare (a b : String) : Ordering :=
  (compareSegments (Text.split '.' a) (Text.split '.' b)).then (compareText a b)

end Rulebook.Ruleset.Version
