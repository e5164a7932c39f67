import Rulebook.Script.Operation

namespace Rulebook.Script

inductive Comparison where
  /-- whether the last member is before the first -/
  | ends
  /-- whether the middle member is before the first -/
  | low (middle : Nat)
  /-- whether the last member is before the middle one -/
  | high (middle : Nat)
  /-- whether the member at `i` is before the pivot -/
  | up (pivot : Value) (i j : Nat)
  /-- whether the pivot is before the member at `j` -/
  | down (pivot : Value) (i j : Nat)

structure Sorting where
  table : Nat
  first : Nat
  last : Nat
  phase : Comparison
  /-- intervals that are sorted later -/
  pending : List (Nat × Nat)

namespace Sorting

def member (h : Heap) (s : Sorting) (i : Nat) : Value := (h.table s.table).getInt (Int64.ofNat i)

def swap (s : Sorting) (i j : Nat) (h : Heap) : Heap :=
  let x := s.member h i
  let y := s.member h j
  (h.setInt s.table (Int64.ofNat i) y).setInt s.table (Int64.ofNat j) x

def question (h : Heap) (s : Sorting) : Value × Value :=
  match s.phase with
  | .ends => (s.member h s.last, s.member h s.first)
  | .low m => (s.member h m, s.member h s.first)
  | .high m => (s.member h s.last, s.member h m)
  | .up p i _ => (s.member h i, p)
  | .down p _ j => (p, s.member h j)

/-- Sorts an interval and then those that are pending. -/
def enter (table : Nat) : List (Nat × Nat) → Option Sorting
  | [] => none
  | (first, last) :: pending =>
    if first < last then some ⟨table, first, last, .ends, pending⟩ else enter table pending

/-- Divides the interval once the middle member is the median. -/
def divide (s : Sorting) (m : Nat) : Action (Option Sorting) := do
  if s.last - s.first = 2 then return enter s.table s.pending
  else
    let p := s.member (← get) m
    modify (s.swap m (s.last - 1))
    return some { s with phase := .up p (s.first + 1) (s.last - 1) }

def invalid {α : Type} : Attempt α := Raised.error "invalid order function for sorting"

def answer (s : Sorting) (yes : Bool) : Action (Option Sorting) := do
  match s.phase with
  | .ends =>
    if yes then modify (s.swap s.first s.last)
    if s.last - s.first = 1 then return enter s.table s.pending
    else return some { s with phase := .low ((s.first + s.last) / 2) }
  | .low m =>
    if yes then
      modify (s.swap m s.first)
      s.divide m
    else return some { s with phase := .high m }
  | .high m =>
    if yes then modify (s.swap m s.last)
    s.divide m
  | .up p i j =>
    if yes then
      if i = s.last - 1 then invalid else return some { s with phase := .up p (i + 1) j }
    else return some { s with phase := .down p i (j - 1) }
  | .down p i j =>
    if yes then
      if j < i then invalid else return some { s with phase := .down p i (j - 1) }
    else if j < i then
      modify (s.swap (s.last - 1) i)
      let below := (s.first, i - 1)
      let above := (i + 1, s.last)
      let next := if i - s.first < s.last - i then [below, above] else [above, below]
      return enter s.table (next ++ s.pending)
    else
      modify (s.swap i j)
      return some { s with phase := .up p (i + 1) j }

def run (s : Sorting) : Nat → Action Unit
  | 0 => return
  | fuel + 1 => do
    let (a, b) := s.question (← get)
    match ← s.answer (← Operation.less a b) with
    | none => return
    | some s => run s fuel

end Sorting

end Rulebook.Script
