import Rulebook.Json.Value
import Rulebook.Rule.Token

namespace Rulebook

structure Limits where
  timeoutMs : Nat
  memory : Nat
  /-- instructions between two looks at the clock -/
  interval : Nat
deriving DecidableEq, Repr

def Limits.standard : Limits := ⟨250, 8 * 1024 * 1024, 1000⟩

/-- A call that a rule may write and that is refused when it is made. -/
inductive Refusal where
  | longPattern (limit : Nat)
  | costlyPattern (subject : Nat)
  | moduleRequest (name : String)
deriving DecidableEq, Repr

def Refusal.message : Refusal → String
  | longPattern limit => "pattern longer than " ++ toString limit ++ " bytes"
  | costlyPattern subject =>
    "pattern too expensive for a " ++ toString subject ++ "-byte subject"
  | moduleRequest name => "require '" ++ name ++ "' is not allowed in rule expressions"

inductive EvalFault where
  | unprepared (detail : String)
  | untokenized (cause : Rule.LexError)
  | uncompiled (detail : String)
  | refused (refusal : Refusal)
  | raised (detail : String)
  | timeout (ms : Nat)
  | memory (bytes : Nat)
  | unrepresentable (detail : String)
deriving DecidableEq, Repr

def EvalFault.message : EvalFault → String
  | unprepared detail => "failed to prepare sandbox: " ++ detail
  | untokenized cause => "expression does not compile: " ++ cause.message
  | uncompiled detail => "expression does not compile: " ++ detail
  | refused refusal => "expression raised an error: " ++ refusal.message
  | raised detail => "expression raised an error: " ++ detail
  | timeout ms => "expression exceeded its " ++ toString ms ++ " ms time limit"
  | memory bytes => "expression exceeded its " ++ toString bytes ++ " byte memory limit"
  | unrepresentable detail => "expression result cannot be represented: " ++ detail

abbrev Evaluator := String → Fields Json → Except EvalFault Json

end Rulebook
