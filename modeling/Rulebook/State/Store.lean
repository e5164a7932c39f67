import Rulebook.State.Path

namespace Rulebook.State

inductive Fault where
  | unknownRoot (root : String)
  | invalidTarget (target : String) (cause : PathFault)
  | rejected (index : Nat) (operation : Operation) (target : String) (cause : PathFault)
  | notObject (found : String)
deriving DecidableEq, Repr

def Fault.message : Fault → String
  | unknownRoot root => "unknown state root '" ++ root ++ "'"
  | invalidTarget target cause =>
    "invalid effect target '" ++ target ++ "': " ++ cause.message
  | rejected i op target cause =>
    "effect " ++ toString i ++ " (" ++ op.name ++ " " ++ target ++ ") rejected: " ++ cause.message
  | notObject found => "state store failure: state must be a JSON object, got " ++ found

structure Store where
  roots : Fields Json

namespace Store

def withRoots (names : List String) : Store :=
  ⟨Fields.ofList (names.map fun n => (n, Json.empty))⟩

def ofJson : Json → Except Fault Store
  | .obj members => .ok ⟨members⟩
  | v => .error (.notObject v.typeName)

def toJson (s : Store) : Json := .obj s.roots

def names (s : Store) : List String := s.roots.names

def hasRoot (s : Store) (root : String) : Bool := s.roots.has root

def readRoot? (s : Store) (root : String) : Option Json := s.roots.get? root

def insertRoot (s : Store) (root : String) (value : Json) : Store :=
  ⟨Fields.insert root value s.roots⟩

def get? (s : Store) (p : Path) : Option Json := (s.readRoot? p.root).bind (State.get? p.rest)

end Store

/-- A lock on a root of the store, by which the root can be written. -/
structure Guard where
  root : String

/-- Locks on roots of the store, and copies of these roots with the changes made so far. -/
structure Batch where
  guards : Fields Guard
  staged : Fields Json
  keys : guards.names = staged.names
  own : ∀ g ∈ guards, g.2.root = g.1

namespace Batch

def roots (b : Batch) : List String := b.guards.names

def view? (b : Batch) (root : String) : Option Json := b.staged.get? root

def get? (b : Batch) (p : Path) : Option Json := (b.view? p.root).bind (State.get? p.rest)

def restage (b : Batch) (root : String) (value : Json) : Batch :=
  { b with
    staged := Fields.set root value b.staged
    keys := b.keys.trans (Fields.names_set root value b.staged).symm }

/-- One change to a staged root. It is made to a copy, which is staged if all goes well. -/
def change (b : Batch) (p : Path) (op : Operation) (value : Json) : Batch × Except Fault Change :=
  match b.view? p.root with
  | none => (b, .error (.unknownRoot p.root))
  | some root =>
    match edit op value p.rest root with
    | (root, .ok change) => (b.restage p.root root, .ok change)
    | (_, .error cause) => (b, .error (.invalidTarget p.text cause))

def set (b : Batch) (p : Path) (op : Operation) (value : Json) : Except Fault (Batch × Change) :=
  let (b, result) := b.change p op value
  result.map (b, ·)

def commit (b : Batch) (s : Store) : Store :=
  ⟨b.guards.foldl (fun roots g => match b.view? g.1 with
    | some v => Fields.insert g.2.root v roots
    | none => roots) s.roots⟩

def rollback (_ : Batch) (s : Store) : Store := s

end Batch

theorem names_filterMap {α : Type} (look : String → Option α) (names : List String) :
    Fields.names (names.filterMap fun n => (look n).map (n, ·)) =
      names.filter fun n => (look n).isSome := by
  induction names with
  | nil => rfl
  | cons n names ih =>
    unfold Fields.names at ih ⊢
    cases h : look n <;> simp [h, ih]

namespace Store

/-- A batch on the roots that the store has among some names. -/
def hold (s : Store) (names : List String) : Batch where
  guards := names.filterMap fun n => ((s.readRoot? n).map fun _ => Guard.mk n).map (n, ·)
  staged := names.filterMap fun n => (s.readRoot? n).map (n, ·)
  keys := by
    rw [names_filterMap fun n => (s.readRoot? n).map fun _ => Guard.mk n, names_filterMap]
    simp
  own := by
    intro g hg
    simp only [List.mem_filterMap, Option.map_eq_some_iff] at hg
    obtain ⟨n, -, _, ⟨_, -, rfl⟩, rfl⟩ := hg
    rfl

/-- A batch on the given roots. The first in order of those that the store lacks is reported. -/
def begin (s : Store) (roots : List String) : Except Fault Batch :=
  let wanted := sortedNames roots
  match wanted.find? fun r => !s.hasRoot r with
  | some r => .error (.unknownRoot r)
  | none => .ok (s.hold wanted)

end Store

structure Effect where
  target : Path
  operation : Operation
  value : Json

structure Applied where
  effect : Effect
  change : Change

def rootsOf (effects : List Effect) : List String := sortedNames (effects.map (·.target.root))

/-- Stages effects in order, the first of them numbered `index`, up to the first that fails. The
batch keeps what was staged before. -/
def Batch.stage (b : Batch) (index : Nat) : List Effect → Batch × Except Fault (List Applied)
  | [] => (b, .ok [])
  | e :: es =>
    match b.change e.target e.operation e.value with
    | (b, .error (.invalidTarget target cause)) =>
      (b, .error (.rejected index e.operation target cause))
    | (b, .error fault) => (b, .error fault)
    | (b, .ok change) =>
      let (b, rest) := b.stage (index + 1) es
      (b, rest.map (⟨e, change⟩ :: ·))

/-- All effects or none of them: the store as it is then, and what the effects come to. -/
def Store.attempt (s : Store) (effects : List Effect) : Store × Except Fault (List Applied) :=
  if effects.isEmpty then (s, .ok [])
  else
    match s.begin (rootsOf effects) with
    | .error fault => (s, .error fault)
    | .ok b =>
      match b.stage 0 effects with
      | (b, .ok applied) => (b.commit s, .ok applied)
      | (b, .error fault) => (b.rollback s, .error fault)

def Store.apply (s : Store) (effects : List Effect) : Except Fault (Store × List Applied) :=
  let (s, result) := s.attempt effects
  result.map (s, ·)

end Rulebook.State
