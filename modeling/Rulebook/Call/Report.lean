import Rulebook.Ruleset.Phase
import Rulebook.State.Store
import Rulebook.Json.Printer

namespace Rulebook.Call

inductive ErrorKind where
  | structural | securityViolation | argument | validationFailure | runtime | application
deriving DecidableEq, Repr

def ErrorKind.name : ErrorKind → String
  | structural => "structural"
  | securityViolation => "security_violation"
  | argument => "argument"
  | validationFailure => "validation_failure"
  | runtime => "runtime"
  | application => "application"

structure FailedRule where
  index : Nat
  expression : String
  result : Json

structure CallError where
  kind : ErrorKind
  message : String
  details : List String

inductive Outcome where
  | succeeded (applied : List State.Applied)
  | rejected (rules : Nat) (broken : List FailedRule)
  | failed (error : CallError)

structure Report where
  function : String
  phase : Ruleset.Phase
  ruleset : String
  outcome : Outcome

def narrate (a : State.Applied) : String :=
  let target := a.effect.target.text
  let value := a.effect.value.print
  match a.effect.operation with
  | .set => target ++ " set to " ++ value
  | .add => target ++ " changed by " ++ value ++ " (now " ++ a.change.current.print ++ ")"
  | .remove =>
    if State.isNull a.change.current then target ++ " removed"
    else value ++ " removed from " ++ target
  | .append => value ++ " added to " ++ target

def Outcome.summary (function : String) : Outcome → String
  | succeeded [] => function ++ " succeeded with no state changes"
  | succeeded applied => function ++ " succeeded: " ++ "; ".intercalate (applied.map narrate)
  | rejected rules broken =>
    function ++ " was not allowed: " ++ toString broken.length ++ " of " ++ toString rules ++
      " rule(s) failed (" ++ "; ".intercalate (broken.map (·.expression)) ++ ")"
  | failed e => function ++ " failed (" ++ e.kind.name ++ "): " ++ e.message

def Outcome.success : Outcome → Bool
  | succeeded _ => true
  | _ => false

def Outcome.kind? : Outcome → Option ErrorKind
  | succeeded _ => none
  | rejected _ _ => some .validationFailure
  | failed e => some e.kind

/-- A member that is left out when its list is empty. -/
def nonEmpty (name : String) (items : List Json) : List (String × Json) :=
  if items.isEmpty then [] else [(name, .arr items)]

def appliedJson (a : State.Applied) : Json :=
  .obj [("target", .str a.effect.target.text), ("operation", .str a.effect.operation.name),
    ("value", a.effect.value), ("previous", a.change.previous), ("current", a.change.current)]

def FailedRule.toJson (f : FailedRule) : Json :=
  .obj [("index", .int f.index), ("expression", .str f.expression), ("result", f.result)]

def CallError.toJson (e : CallError) : Json :=
  .obj ([("kind", .str e.kind.name), ("message", .str e.message)] ++
    nonEmpty "details" (e.details.map .str))

def Outcome.members : Outcome → List (String × Json)
  | succeeded applied => nonEmpty "effectsApplied" (applied.map appliedJson)
  | rejected _ broken => nonEmpty "failedValidations" (broken.map FailedRule.toJson)
  | failed e => [("error", e.toJson)]

def Report.summary (r : Report) : String := r.outcome.summary r.function

def Report.toJson (r : Report) : Json :=
  .obj ([("function", .str r.function), ("phase", .str r.phase.name),
    ("ruleset", .str r.ruleset), ("success", .bool r.outcome.success)] ++ r.outcome.members ++
    [("summary", .str r.summary)])

end Rulebook.Call
