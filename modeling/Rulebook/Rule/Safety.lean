import Rulebook.Rule.Token
import Rulebook.Decimal.Reading

namespace Rulebook.Rule

inductive Danger where
  | dynamicEvaluation | hostAccess | reflection | unboundedLoop | malformed
deriving DecidableEq, Repr

namespace Danger

def name : Danger → String
  | dynamicEvaluation => "dynamic_evaluation"
  | hostAccess => "host_access"
  | reflection => "reflection"
  | unboundedLoop => "unbounded_loop"
  | malformed => "malformed"

def text : Danger → String
  | dynamicEvaluation => "dynamic code evaluation"
  | hostAccess => "host access"
  | reflection => "reflection escape"
  | unboundedLoop => "unbounded loop"
  | malformed => "malformed expression"

end Danger

structure Violation where
  danger : Danger
  token : String
  offset : Nat
deriving DecidableEq, Repr

def Violation.message (v : Violation) : String :=
  v.danger.text ++ " via '" ++ v.token ++ "' at offset " ++ toString v.offset

def evaluationNames : List String :=
  ["eval", "load", "loadstring", "loadfile", "dofile", "Function", "setTimeout", "setInterval",
    "dump"]

def hostNames : List String :=
  ["require", "import", "io", "os", "fs", "net", "http", "https", "socket", "fetch",
    "XMLHttpRequest", "WebSocket", "process", "child_process", "package", "module", "exports",
    "print", "window", "document", "Deno", "Bun"]

def reflectionNames : List String :=
  ["debug", "getmetatable", "setmetatable", "rawget", "rawset", "rawequal", "rawlen", "getfenv",
    "setfenv", "newproxy", "collectgarbage", "coroutine", "_G", "_ENV", "globalThis",
    "constructor", "prototype", "Reflect", "Proxy", "arguments", "caller", "callee"]

def loopNames : List String := ["while", "repeat", "until", "goto", "function"]

def startsDunder (name : String) : Bool := ['_', '_'].isPrefixOf name.toList

def danger? (name : String) : Option Danger :=
  if name ∈ evaluationNames then some .dynamicEvaluation
  else if name ∈ hostNames then some .hostAccess
  else if name ∈ reflectionNames || startsDunder name then some .reflection
  else if name ∈ loopNames then some .unboundedLoop
  else none

def maxRounds : Float := 10000

def literal? : List Token → Option (Float × List Token)
  | t :: ts =>
    if t.isPunct "-" then
      match ts with
      | u :: us =>
        if u.kind = .number then (Decimal.magnitude? u.text.toList).map fun x => (x * -1, us)
        else none
      | [] => none
    else if t.kind = .number then (Decimal.magnitude? t.text.toList).map fun x => (x * 1, ts)
    else none
  | [] => none

/-- At most `n` literals with commas between them, and what follows the last. -/
def literals? : Nat → List Token → Option (List Float × List Token)
  | 0, _ => none
  | n + 1, ts => do
    let (x, rest) ← literal? ts
    match rest with
    | t :: us =>
      if t.isPunct "," && n != 0 then
        let (xs, rest) ← literals? n us
        return (x :: xs, rest)
      else return ([x], t :: us)
    | [] => return ([x], [])

def rounds (start stop step : Float) : Float := ((stop - start) / step).floor + 1

def isFinite (x : Float) : Bool := !x.isNaN && !x.isInf

def fewRounds (start stop step : Float) : Bool :=
  !(step == 0) && isFinite step &&
    isFinite (rounds start stop step) && rounds start stop step ≤ maxRounds

def isCountedLoop : List Token → Bool
  | name :: sign :: ts =>
    name.kind = .ident && sign.isPunct "=" &&
      match literals? 3 ts with
      | some ([a, b], t :: _) => t.isIdent "do" && fewRounds a b 1
      | some ([a, b, c], t :: _) => t.isIdent "do" && fewRounds a b c
      | _ => false
  | _ => false

def Token.danger? (before : Option Token) (t : Token) (after : List Token) : Option Danger :=
  match t.kind with
  | .ident =>
    if t.text = "for" then if isCountedLoop after then none else some .unboundedLoop
    else Rule.danger? t.text
  | .str => if before.any (·.isPunct "[") then Rule.danger? t.contents else none
  | .punct => if t.text = "=>" then some .unboundedLoop else none
  | .number => none

def violationsFrom (before : Option Token) : List Token → List Violation
  | [] => []
  | t :: ts =>
    ((t.danger? before ts).map fun d => Violation.mk d t.text t.start).toList ++
      violationsFrom (some t) ts

/-- What keeps an expression from being run: names that reach outside of it, and every loop but a
counted one with literal bounds and few rounds. -/
def violations (expr : String) : List Violation :=
  match tokens expr with
  | .error e => [⟨.malformed, e.cause.message, e.offset⟩]
  | .ok ts => violationsFrom none ts

def isSafe (expr : String) : Bool := (violations expr).isEmpty

end Rulebook.Rule
