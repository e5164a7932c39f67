import Rulebook.Text.Blank

namespace Rulebook.Ruleset

inductive Phase where
  | setup | characterCreation | exploration | dialogue | combat | rest | progression
deriving DecidableEq, Repr

namespace Phase

def all : List Phase :=
  [setup, characterCreation, exploration, dialogue, combat, rest, progression]

def rank : Phase → Nat
  | setup => 0
  | characterCreation => 1
  | exploration => 2
  | dialogue => 3
  | combat => 4
  | rest => 5
  | progression => 6

def name : Phase → String
  | setup => "setup"
  | characterCreation => "character_creation"
  | exploration => "exploration"
  | dialogue => "dialogue"
  | combat => "combat"
  | rest => "rest"
  | progression => "progression"

/-- A spelling without case, underscores, dashes and spaces. Latin letters are enough here: no
other letter becomes one of those in a phase's name when it is made small. -/
def fold (s : String) : String :=
  Text.asciiLower (String.ofList (s.toList.filter fun c => c != '_' && c != '-' && c != ' '))

def parse? (s : String) : Option Phase := all.find? fun p => fold p.name == fold s

end Phase

/-- A value for some of the phases, in the order of the phases. -/
abbrev PhaseMap (α : Type) := List (Phase × α)

namespace PhaseMap

variable {α : Type}

def get? (m : PhaseMap α) (p : Phase) : Option α := List.lookup p m

def insert (p : Phase) (value : α) : PhaseMap α → PhaseMap α
  | [] => [(p, value)]
  | (q, v) :: m =>
    if p.rank < q.rank then (p, value) :: (q, v) :: m
    else if p = q then (p, value) :: m
    else (q, v) :: insert p value m

def phases (m : PhaseMap α) : List Phase := m.map Prod.fst

end PhaseMap

end Rulebook.Ruleset
