import Rulebook.Call.Binding
import Rulebook.Call.Report
import Rulebook.Rule.Safety
import Rulebook.Ruleset.Validation
import Rulebook.Evaluation

namespace Rulebook.Call

open Ruleset

structure Resolved where
  arguments : Fields Json
  validations : List String
  effects : List State.Effect

def fail {α : Type} (kind : ErrorKind) (message : String) (details : List String) :
    Except CallError α :=
  .error ⟨kind, message, details⟩

def resolveRule (arguments : Fields Json) (rule : String) : Except CallError String :=
  match Template.substituteRule rule arguments with
  | .ok s => .ok s
  | .error (.unresolved name) => fail .structural (Template.Fault.unresolved name).message []
  | .error (.unsafeArgument name r) =>
    fail .argument (Template.Fault.unsafeArgument name r).message []

def structural {α : Type} : Except Template.Fault α → Except CallError α
  | .ok a => .ok a
  | .error e => fail .structural e.message []

def resolveEffect (store : State.Store) (arguments : Fields Json) (e : EffectSpec) :
    Except CallError State.Effect := do
  let target ← structural (Template.substitute e.target arguments)
  let value ← structural (Template.resolve arguments e.value)
  match State.Path.parse target with
  | .error cause => fail .application (State.Fault.invalidTarget target cause).message []
  | .ok path =>
    if store.hasRoot path.root then .ok ⟨path, e.operation, value⟩
    else fail .application (State.Fault.unknownRoot path.root).message []

def resolve (store : State.Store) (f : Function) (args : Fields Json) :
    Except CallError Resolved := do
  let arguments ← match bind f.parameters args with
    | .ok bound => .ok bound
    | .error faults =>
      let details := faults.map ArgumentFault.message
      fail .argument ("; ".intercalate details) details
  let validations ← f.validations.mapM (resolveRule arguments)
  let effects ← f.effects.mapM (resolveEffect store arguments)
  return ⟨arguments, validations, effects⟩

def ruleLabel (i : Nat) : String := "ruleValidations[" ++ toString i ++ "]: "

def unsafeConstructs (i : Nat) : List String → List String
  | [] => []
  | rule :: rules =>
    (Rule.violations rule).map (fun v => ruleLabel i ++ v.message) ++ unsafeConstructs (i + 1) rules

/-- The names that rules see: the arguments, the state's roots and the game data. Roots that the
call will write are seen as its batch has them. -/
def context (store : State.Store) (gameData : Fields Json) (batch : State.Batch)
    (arguments : Fields Json) : Fields Json :=
  let read := stateRoots.filter (· ∉ batch.roots)
  let seen := Fields.insert "gameData" (.obj gameData)
    (Fields.readInto arguments store.readRoot? read)
  Fields.readInto seen batch.view? batch.roots

/-- The rules that are not satisfied. The first that cannot be evaluated ends the search. -/
def failedRules (evaluate : Evaluator) (context : Fields Json) (i : Nat) :
    List String → Except (Nat × EvalFault) (List FailedRule)
  | [] => .ok []
  | rule :: rules =>
    match evaluate rule context with
    | .error e => .error (i, e)
    | .ok v => do
      let rest ← failedRules evaluate context (i + 1) rules
      return if v.truthy then rest else ⟨i, rule, v⟩ :: rest

def stateFault {α : Type} : Except State.Fault α → Except CallError α
  | .ok a => .ok a
  | .error e => fail .application e.message []

def perform (evaluate : Evaluator) (gameData : Fields Json) (f : Function) (args : Fields Json)
    (store : State.Store) : Except CallError (Outcome × State.Store) := do
  let resolved ← resolve store f args
  let found := unsafeConstructs 0 resolved.validations
  if !found.isEmpty then
    fail .securityViolation
      (toString found.length ++ " unsafe construct(s) in rule expressions") found
  else
    let batch ← stateFault (store.begin (State.rootsOf resolved.effects))
    match failedRules evaluate (context store gameData batch resolved.arguments) 0
        resolved.validations with
    | .error (i, e) => fail .runtime (ruleLabel i ++ e.message) []
    | .ok [] =>
      match batch.stage 0 resolved.effects with
      | (batch, .ok applied) => return (.succeeded applied, batch.commit store)
      | (_, .error e) => fail .application e.message []
    | .ok broken => return (.rejected resolved.validations.length broken, store)

structure Callable where
  function : Function
  phase : Phase
  document : Document

def Callable.report (c : Callable) (outcome : Outcome) : Report :=
  ⟨c.function.name, c.phase, c.document.id.text, outcome⟩

def Callable.invoke (c : Callable) (evaluate : Evaluator) (args : Fields Json)
    (store : State.Store) : Report × State.Store :=
  match perform evaluate c.document.gameData c.function args store with
  | .ok (outcome, store) => (c.report outcome, store)
  | .error e => (c.report (.failed e), store)

def rootOf (target : String) : String :=
  String.ofList (target.toList.takeWhile (· != '.'))

/-- Effects on roots that the state lacks. A root that holds a brace is known only in the call. -/
def unknownRoots (roots : List String) (location : String) (i : Nat) :
    List EffectSpec → List Violation
  | [] => []
  | e :: es =>
    let root := rootOf e.target
    expect (root.toList.contains '\x7b' || root ∈ roots)
        (item location "effects" i ++ ".target") (.unknownRoot root) ++
      unknownRoots roots location (i + 1) es

def unknownRootsOf (roots : List String) (location : String) (i : Nat) :
    List Function → List Violation
  | [] => []
  | f :: fs =>
    unknownRoots roots (location ++ "[" ++ toString i ++ "]") 0 f.effects ++
      unknownRootsOf roots location (i + 1) fs

def callables (roots : List String) (d : Document) (p : Phase) :
    Except (List Violation) (List Callable) :=
  let found := unknownRootsOf roots (phaseLocation p.name) 0 (d.functionsOf p)
  if found.isEmpty then .ok ((d.functionsOf p).map fun f => ⟨f, p, d⟩) else .error found

def allCallables (roots : List String) (d : Document) :
    Except (List Violation) (PhaseMap (List Callable)) :=
  go d.phases
where
  go : List Phase → Except (List Violation) (PhaseMap (List Callable))
    | [] => .ok []
    | p :: ps =>
      match callables roots d p, go ps with
      | .ok cs, .ok rest => .ok ((p, cs) :: rest)
      | .ok _, .error es => .error es
      | .error es, .ok _ => .error es
      | .error es, .error es' => .error (es ++ es')

end Rulebook.Call
