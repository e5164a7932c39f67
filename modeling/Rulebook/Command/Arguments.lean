import Rulebook.Ruleset.Phase

namespace Rulebook.Command

inductive Request where
  | validate (file : String)
  | schemas (file : String) (phase : Ruleset.Phase)
  | invoke (file : String) (phase : Ruleset.Phase) (function arguments : String)
    (state : Option String) (write : Bool)
  | check (expression : String)
  | list (dir : Option String)

inductive Topic where
  | validate | schemas | invoke | check | list
deriving DecidableEq, Repr

def Topic.all : List Topic := [.validate, .schemas, .invoke, .check, .list]

def Topic.name : Topic → String
  | validate => "validate"
  | schemas => "schemas"
  | invoke => "invoke"
  | check => "check"
  | list => "list"

def Topic.ofName? (s : String) : Option Topic := Topic.all.find? (·.name == s)

inductive Page where
  | program
  | topic (t : Topic)
  | help
deriving DecidableEq, Repr

inductive Wish where
  | run (config : Option String) (request : Request)
  | help (page : Page)
  | version

inductive ValueKind where
  | text | path | phase
deriving DecidableEq, Repr

def ValueKind.accepts : ValueKind → String → Bool
  | text, _ => true
  | path, s => !s.isEmpty
  | phase, s => (Ruleset.Phase.parse? s).isSome

structure OptionSpec where
  name : String
  /-- none for an option without a value -/
  value : Option ValueKind
  required : Bool
  about : String

structure ArgumentSpec where
  name : String
  kind : ValueKind
  about : String

structure Shape where
  about : String
  options : List OptionSpec
  argument : Option ArgumentSpec

def configOption : OptionSpec :=
  ⟨"config", some .path, false, "Configuration file (defaults to the per-user config if present)"⟩

def rulesetFile : ArgumentSpec := ⟨"file", .path, "Ruleset file (JSON or YAML)"⟩

def noArguments : String := "\x7b\x7d"

def shape : Topic → Shape
  | .validate =>
    ⟨"Validate a ruleset document and report every structural problem", [configOption],
      some rulesetFile⟩
  | .schemas =>
    ⟨"Print the tool-call schemas of one phase as JSON",
      [configOption, ⟨"phase", some .phase, true, "Phase whose functions to describe"⟩],
      some rulesetFile⟩
  | .invoke =>
    ⟨"Invoke one ruleset function against a state file",
      [configOption,
        ⟨"phase", some .phase, true, "Phase the function belongs to"⟩,
        ⟨"function", some .text, true, "Function name"⟩,
        ⟨"args", some .text, false,
          "Arguments as a JSON object [default: " ++ noArguments ++ "]"⟩,
        ⟨"state", some .path, false,
          "State file holding `\x7b\"character\": ..., \"gameState\": ...\x7d`"⟩,
        ⟨"write", none, false, "Write the mutated state back to the state file on success"⟩],
      some rulesetFile⟩
  | .check =>
    ⟨"Run the static safety filter over an expression", [configOption],
      some ⟨"expression", .text, "Expression to check"⟩⟩
  | .list =>
    ⟨"List rulesets found in the rulesets directory",
      [configOption, ⟨"dir", some .path, false, "Rulesets directory (overrides configuration)"⟩],
      none⟩

def Shape.option? (sh : Shape) (name : String) : Option OptionSpec :=
  sh.options.find? (·.name == name)

/-- What was given so far; an option without a value has an empty one. -/
structure Given where
  options : List (String × String)
  argument : Option String

namespace Given

def nothing : Given := ⟨[], none⟩

def option? (g : Given) (name : String) : Option String := g.options.lookup name

def withOption? (g : Given) (o : OptionSpec) (value : String) : Option Given :=
  if (g.option? o.name).isSome || !o.value.all (·.accepts value) then none
  else some { g with options := (o.name, value) :: g.options }

def withArgument? (sh : Shape) (g : Given) (value : String) : Option Given := do
  let a ← sh.argument
  if g.argument.isSome || !a.kind.accepts value then none
  else return { g with argument := some value }

end Given

/-- Help that is asked for goes before everything that comes after it. -/
inductive Scanned where
  | given (g : Given)
  | help

def isOption (s : String) : Bool :=
  match s.toList with
  | '-' :: _ :: _ => true
  | _ => false

def splitOption (cs : List Char) : String × Option String :=
  let name := String.ofList (cs.takeWhile (· != '='))
  match cs.dropWhile (· != '=') with
  | _ :: value => (name, some (String.ofList value))
  | [] => (name, none)

/-- Reads the arguments of a subcommand. An option's value follows it or an equals sign; it does not
begin with a dash, unless it is a dash alone. After two dashes no argument is an option. -/
def scan (sh : Shape) (g : Given) : List String → Option Scanned
  | [] => some (.given g)
  | a :: rest =>
    match a.toList with
    | ['-', '-'] => (rest.foldlM (Given.withArgument? sh) g).map .given
    | '-' :: '-' :: cs =>
      match splitOption cs with
      | ("help", none) => some .help
      | (name, attached) =>
        match sh.option? name with
        | none => none
        | some o =>
          match o.value, attached, rest with
          | none, none, rest => (g.withOption? o "").bind fun g => scan sh g rest
          | none, some _, _ => none
          | some _, some value, rest => (g.withOption? o value).bind fun g => scan sh g rest
          | some _, none, value :: rest =>
            if isOption value then none
            else (g.withOption? o value).bind fun g => scan sh g rest
          | some _, none, [] => none
    | '-' :: 'h' :: _ => some .help
    | '-' :: _ :: _ => none
    | _ => (g.withArgument? sh a).bind fun g => scan sh g rest

def request? (t : Topic) (g : Given) : Option Request := do
  let phase := (g.option? "phase").bind Ruleset.Phase.parse?
  match t with
  | .validate => return .validate (← g.argument)
  | .schemas => return .schemas (← g.argument) (← phase)
  | .invoke =>
    let arguments := (g.option? "args").getD noArguments
    let state := g.option? "state"
    let write := (g.option? "write").isSome
    if write && state.isNone then none
    else return .invoke (← g.argument) (← phase) (← g.option? "function") arguments state write
  | .check => return .check (← g.argument)
  | .list => return .list (g.option? "dir")

def page? : List String → Option Page
  | [] => some .program
  | ["help"] => some .help
  | [name] => (Topic.ofName? name).map .topic
  | _ => none

def topicWish? (config : Option String) (t : Topic) (rest : List String) : Option Wish :=
  match scan (shape t) .nothing rest with
  | none => none
  | some .help => some (.help (.topic t))
  | some (.given g) => (request? t g).map (.run ((g.option? "config").or config))

def wish? (config : Option String) : List String → Option Wish
  | [] => none
  | a :: rest =>
    match a.toList with
    | '-' :: '-' :: cs =>
      match splitOption cs, rest with
      | ("help", none), _ => some (.help .program)
      | ("version", none), _ => some .version
      | ("config", some value), rest =>
        if config.isSome || value.isEmpty then none else wish? (some value) rest
      | ("config", none), value :: rest =>
        if config.isSome || value.isEmpty || isOption value then none else wish? (some value) rest
      | _, _ => none
    | '-' :: 'h' :: _ => some (.help .program)
    | '-' :: 'V' :: _ => some .version
    | _ =>
      if a == "help" then (page? rest).map .help
      else (Topic.ofName? a).bind fun t => topicWish? config t rest

end Rulebook.Command
