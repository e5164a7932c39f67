import Rulebook.Command.Help
import Rulebook.Session
import Rulebook.Rule.Safety

namespace Rulebook.Command

open Ruleset Source

/-- The operations on files that a run needs. Reading and writing may fail with a reason; an empty
path names no directory. -/
structure Files (m : Type → Type) where
  read : String → m (Except String ByteArray)
  isFile : String → m Bool
  listing : String → m (Option Listing)
  write : String → ByteArray → m (Except String Unit)

structure Outcome where
  code : Nat
  out : List String
  err : List String

def indent (line : String) : String := "  " ++ line

def givenUp (lines : List String) (why : String) : Outcome :=
  ⟨1, [], lines ++ ["Error: " ++ why]⟩

def joinPath (dir path : String) : String :=
  if dir.toList.getLast? = some '/' then dir ++ path else dir ++ "/" ++ path

def structuralCount (vs : List Violation) : String := toString vs.length ++ " structural error(s)"

def settingsFile? (env : String → Option String) : Option String :=
  let below (dir : String) := joinPath dir (programName ++ "/config.yaml")
  match (env "XDG_CONFIG_HOME").filter fun dir => dir.toList.head? = some '/' with
  | some dir => some (below dir)
  | none => ((env "HOME").filter (!·.isEmpty)).map fun home => below (joinPath home ".config")

def unsafeRules (d : Document) : List String :=
  d.phases.flatMap fun p =>
    (d.functionsOf p).zipIdx.flatMap fun (f, i) =>
      f.validations.zipIdx.flatMap fun (rule, j) =>
        (Rule.violations rule).map fun v =>
          item (item "functionsByPhase" p.name i) "ruleValidations" j ++ ": " ++ v.message

/-- The state with an empty root for each that effects may write and that it lacks. -/
def withStateRoots (s : State.Store) : State.Store :=
  stateRoots.foldl (fun s r => if s.hasRoot r then s else s.insertRoot r .empty) s

section

variable {m : Type → Type} [Monad m] (files : Files m)

def readBytes (what path : String) : ExceptT Outcome m ByteArray := do
  match ← files.read path with
  | .ok bytes => return bytes
  | .error cause => throw (givenUp [] ("Failed to read " ++ what ++ ": " ++ path ++ ": " ++ cause))

def readText (what path : String) : ExceptT Outcome m String := do
  match String.fromUTF8? (← readBytes files what path) with
  | some s => return s
  | none =>
    throw (givenUp [] ("Failed to read " ++ what ++ ": " ++ path ++
      ": stream did not contain valid UTF-8"))

def readSettings (env : String → Option String) (config : Option String) :
    ExceptT Outcome m Settings := do
  let path ← match config with
    | some path => pure (some path)
    | none => match settingsFile? env with
      | some path => if ← files.isFile path then pure (some path) else pure none
      | none => pure none
  let settings ← match path with
    | none => pure Settings.standard
    | some path => match Settings.parse? (← readText files "config" path).toUTF8 with
      | some settings => pure settings
      | none =>
        throw (givenUp [] ("Failed to parse config: " ++ path ++ ": the text holds no settings"))
  match settings.withEnvironment env with
  | (settings, none) => return settings
  | (_, some fault) => throw (givenUp [] fault.fullMessage)

def readRuleset (path : String) : ExceptT Outcome m (Except (List Violation) Document) := do
  let bytes ← readBytes files "ruleset" path
  return loadAs (.forPath path bytes) bytes

def validate (file : String) : ExceptT Outcome m Outcome := do
  match ← readRuleset files file with
  | .error vs => return ⟨1, (file ++ ": " ++ structuralCount vs) :: vs.map (indent ·.message), []⟩
  | .ok d =>
    let found := unsafeRules d
    if found.isEmpty then
      return ⟨0, [d.id.text ++ ": valid (" ++ toString d.functionCount ++ " functions across " ++
        toString d.phases.length ++ " phases)"], []⟩
    else
      return ⟨1, (file ++ ": " ++ toString found.length ++ " unsafe rule expression(s)") ::
        found.map indent, []⟩

def activeRuleset (file : String) (store : State.Store) : ExceptT Outcome m Session.Active := do
  match ← readRuleset files file with
  | .error vs =>
    throw (givenUp (vs.map (indent ·.message)) (file ++ " has " ++ structuralCount vs))
  | .ok d => match ((Session.start none).add d).setActive store.names d.id.text with
    | .ok (a, _) => return a
    | .error fault =>
      throw (givenUp (fault.violations.map (indent ·.message)) fault.message)

def schemas (file : String) (phase : Phase) : ExceptT Outcome m Outcome := do
  let a ← activeRuleset files file (.withRoots stateRoots)
  return ⟨0, [(Json.arr ((a.schemas phase).map (·.toJson))).pretty], []⟩

def readState (path : String) : ExceptT Outcome m State.Store := do
  match JsonText.value? (← readText files "state" path).toUTF8 with
  | none => throw (givenUp [] ("Failed to parse state: " ++ path ++ ": the text is not JSON"))
  | some v => match State.Store.ofJson v with
    | .ok store => return store
    | .error fault => throw (givenUp [] fault.message)

def invoke (evaluate : Evaluator) (file : String) (phase : Phase) (function arguments : String)
    (state : Option String) (write : Bool) : ExceptT Outcome m Outcome := do
  let args ← match JsonText.value? arguments.toUTF8 with
    | some (.obj args) => pure args
    | _ => throw (givenUp [] "--args must be a JSON object: the text is none")
  let store ← match state with
    | some path => readState files path
    | none => pure ⟨[]⟩
  let store := withStateRoots store
  let a ← activeRuleset files file store
  let (report, after) := a.invoke evaluate phase function args store
  let out := [report.toJson.pretty]
  if !report.outcome.success then return ⟨1, out, []⟩
  match write, state with
  | true, some path => match ← files.write path after.toJson.pretty.toUTF8 with
    | .ok () => return ⟨0, out, ["State written to " ++ path]⟩
    | .error cause =>
      return ⟨1, out, ["Error: Failed to write state: " ++ path ++ ": " ++ cause]⟩
  | _, _ => return ⟨0, out, []⟩

def check (expression : String) : Outcome :=
  match Rule.violations expression with
  | [] => ⟨0, ["safe"], []⟩
  | vs => ⟨1, "unsafe" :: vs.map (indent ·.message), []⟩

def list (dir : Option String) : ExceptT Outcome m Outcome := do
  match dir with
  | none =>
    throw (givenUp []
      ("No rulesets directory; pass --dir or set " ++ Settings.rulesetsDirName))
  | some dir => match ← files.listing dir with
    | none => throw (givenUp [] (Catalog.absent dir))
    | some listing => match (Catalog.ofListing listing).entries with
      | [] => return ⟨0, ["No rulesets found in " ++ dir], []⟩
      | entries => return ⟨0, entries.map fun (_, e) =>
          "\t".intercalate [e.id.text, e.name, joinPath dir e.path], []⟩

def perform (evaluate : Limits → Evaluator) (settings : Settings) :
    Request → ExceptT Outcome m Outcome
  | .validate file => validate files file
  | .schemas file phase => schemas files file phase
  | .invoke file phase function arguments state write =>
    invoke files (evaluate settings.limits) file phase function arguments state write
  | .check expression => pure (check expression)
  | .list dir => list files (dir.or settings.rulesetsDir)

def misused : List String → Outcome
  | [] => ⟨2, [], Page.program.lines⟩
  | _ => ⟨2, [], ["error: the arguments cannot be understood", "",
      "For more information, try '--help'."]⟩

def run (evaluate : Limits → Evaluator) (env : String → Option String) (args : List String) :
    m Outcome := do
  match wish? none args with
  | none => return misused args
  | some (.help page) => return ⟨0, page.lines, []⟩
  | some .version => return ⟨0, [version], []⟩
  | some (.run config request) =>
    let outcome : ExceptT Outcome m Outcome := do
      perform files evaluate (← readSettings files env config) request
    match ← outcome.run with
    | .ok o | .error o => return o

end

end Rulebook.Command
