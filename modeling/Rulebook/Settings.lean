import Rulebook.Evaluation
import Rulebook.Source.YamlText

namespace Rulebook

open Source

structure Settings where
  rulesetsDir : Option String
  /-- the ruleset that is active from the start -/
  defaultRuleset : Option String
  limits : Limits

namespace Settings

def standard : Settings := ⟨none, none, .standard⟩

def rulesetsDirName : String := "RULEWEAVE_RULESETS_DIR"
def defaultRulesetName : String := "RULEWEAVE_DEFAULT_RULESET"
def timeoutName : String := "RULEWEAVE_EVAL_TIMEOUT_MS"
def memoryName : String := "RULEWEAVE_EVAL_MEMORY_LIMIT"

def fieldOr {α : Type} (standard : α) (read : Node → Option α) : Option Node → Option α
  | none => some standard
  | some n => read n

def textOrNull (n : Node) : Option (Option String) :=
  if n.isNull then some none else n.text?.map some

def nat32? (n : Node) : Option Nat := n.nat?.filter (· < 0x100000000)

def readLimits (g : Node.Grammar) (n : Node) : Option Limits := do
  match ← n.record? g ["timeout_ms", "memory_limit", "instruction_interval"] with
  | (_, [timeout, memory, interval]) =>
    return ⟨← fieldOr Limits.standard.timeoutMs Node.nat? timeout,
      ← fieldOr Limits.standard.memory Node.nat? memory,
      ← fieldOr Limits.standard.interval nat32? interval⟩
  | _ => none

/-- The settings that a file gives. Other entries are passed over. -/
def read (g : Node.Grammar) (n : Node) : Option Settings := do
  match ← n.record? g ["rulesets_dir", "default_ruleset", "evaluation"] with
  | (g, [dir, ruleset, evaluation]) =>
    return ⟨← fieldOr none textOrNull dir, ← fieldOr none textOrNull ruleset,
      ← fieldOr Limits.standard (readLimits g) evaluation⟩
  | _ => none

def parse? (bytes : ByteArray) : Option Settings := do
  read YamlText.grammar (← YamlText.parse? bytes)

inductive NumberFault where
  | empty
  | invalidDigit
  | tooLarge
deriving DecidableEq, Repr

def NumberFault.message : NumberFault → String
  | empty => "cannot parse integer from empty string"
  | invalidDigit => "invalid digit found in string"
  | tooLarge => "number too large to fit in target type"

def readDigits (n : Nat) : List Char → Except NumberFault Nat
  | [] => .ok n
  | c :: cs =>
    if !c.isDigit then .error .invalidDigit
    else
      let m := 10 * n + (c.toNat - '0'.toNat)
      if Text.nat64Bound ≤ m then .error .tooLarge else readDigits m cs

/-- Digits after an optional plus sign, blanks around them allowed. -/
def readNumber (s : String) : Except NumberFault Nat :=
  match (Text.trim s).toList with
  | [] => .error .empty
  | ['+'] => .error .invalidDigit
  | '+' :: cs | cs => readDigits 0 cs

structure Fault where
  name : String
  unit : String
  cause : NumberFault
deriving DecidableEq, Repr

def Fault.message (f : Fault) : String := f.name ++ " must be a number of " ++ f.unit

def Fault.fullMessage (f : Fault) : String := f.message ++ ": " ++ f.cause.message

/-- The settings with what the environment says, up to the first variable that is at fault. -/
def withEnvironment (s : Settings) (env : String → Option String) : Settings × Option Fault :=
  let s := match env rulesetsDirName with
    | some dir => { s with rulesetsDir := some dir }
    | none => s
  let s := match env defaultRulesetName with
    | some id => { s with defaultRuleset := some id }
    | none => s
  match (env timeoutName).map readNumber with
  | some (.error e) => (s, some ⟨timeoutName, "milliseconds", e⟩)
  | timeout =>
    let s := match timeout with
      | some (.ok n) => { s with limits := { s.limits with timeoutMs := n } }
      | _ => s
    match (env memoryName).map readNumber with
    | some (.error e) => (s, some ⟨memoryName, "bytes", e⟩)
    | some (.ok n) => ({ s with limits := { s.limits with memory := n } }, none)
    | none => (s, none)

end Settings

end Rulebook
