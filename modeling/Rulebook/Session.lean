import Rulebook.Call.Invocation
import Rulebook.Call.Schema
import Rulebook.Catalog
import Rulebook.Settings

namespace Rulebook

open Ruleset Call

namespace Session

/-- A document that answers calls. Every activation has the next generation, without an end: a
counter of 64 bits would begin anew after `2 ^ 64` activations. -/
structure Active where
  document : Document
  generation : Nat
  callables : PhaseMap (List Callable)

inductive Fault where
  | notLoaded (id : String)
  | notInCatalog (id : String)
  | structural (violations : List Violation)
  | noneActive

def Fault.message : Fault → String
  | notLoaded id => "ruleset '" ++ id ++ "' is not loaded"
  | notInCatalog id => "ruleset '" ++ id ++ "' is not in the catalog"
  | structural vs =>
    "ruleset failed structural validation with " ++ toString vs.length ++ " error(s)"
  | noneActive => "no ruleset is active"

def Fault.violations : Fault → List Violation
  | structural vs => vs
  | _ => []

namespace Active

def callablesOf (a : Active) (p : Phase) : List Callable := (a.callables.get? p).getD []

def callable? (a : Active) (p : Phase) (name : String) : Option Callable :=
  (a.callablesOf p).find? fun c => c.function.name == name

def schemas (a : Active) (p : Phase) : List Schema :=
  (a.callablesOf p).map fun c => .of c.function

def unknownFunction (p : Phase) (name : String) : CallError :=
  ⟨.argument, "unknown function '" ++ name ++ "' in phase '" ++ p.name ++ "'", []⟩

def invoke (a : Active) (evaluate : Evaluator) (p : Phase) (name : String) (args : Fields Json)
    (store : State.Store) : Report × State.Store :=
  match a.callable? p name with
  | some c => c.invoke evaluate args store
  | none => (⟨name, p, a.document.id.text, .failed (unknownFunction p name)⟩, store)

end Active

end Session

structure Session where
  catalog : Option Catalog
  /-- the loaded documents by the texts of their ids -/
  loaded : Fields Document
  active : Option Session.Active
  /-- the one that was active before -/
  previous : Option Session.Active
  generation : Nat
  phase : Phase

namespace Session

def start (catalog : Option Catalog) : Session := ⟨catalog, [], none, none, 0, .setup⟩

/-- Adds a document; one with the same id is replaced. -/
def add (s : Session) (d : Document) : Session :=
  { s with loaded := Fields.insert d.id.text d s.loaded }

def load (s : Session) (source : ByteArray) : Except Fault (Document × Session) :=
  match Ruleset.load source with
  | .ok d => .ok (d, s.add d)
  | .error vs => .error (.structural vs)

/-- Adds a document of the catalog, from the contents that its file had when the directory was
listed. That a file has changed since or cannot be read any more is not told apart. -/
def loadById (s : Session) (id : String) : Except Fault (Document × Session) :=
  match s.catalog.bind (·.find? id) with
  | none => .error (.notInCatalog id)
  | some e =>
    match e.load with
    | .ok d => .ok (d, s.add d)
    | .error vs => .error (.structural vs)

/-- Makes a loaded document the active one, for a state with the given roots. The callables of all
its phases are made here, so that a call under way keeps the document it began with. -/
def setActive (s : Session) (roots : List String) (id : String) : Except Fault (Active × Session) :=
  match Fields.get? s.loaded id with
  | none => .error (.notLoaded id)
  | some d =>
    match allCallables roots d with
    | .error vs => .error (.structural vs)
    | .ok callables =>
      let a : Active := ⟨d, s.generation + 1, callables⟩
      .ok (a, { s with active := some a, previous := s.active, generation := s.generation + 1 })

/-- Makes a document the active one, after adding it from the catalog if it is not loaded. The
session is given also if the second step fails. -/
def activate (s : Session) (roots : List String) (id : String) :
    Except Fault Active × Session :=
  let ready : Except Fault (String × Session) :=
    match DocumentId.parse? id with
    | some full =>
      if Fields.has s.loaded full.text then .ok (full.text, s)
      else (s.loadById id).map fun (d, s) => (d.id.text, s)
    | none => (s.loadById id).map fun (d, s) => (d.id.text, s)
  match ready with
  | .error e => (.error e, s)
  | .ok (id, s) =>
    match s.setActive roots id with
    | .ok (a, s) => (.ok a, s)
    | .error e => (.error e, s)

def requireActive (s : Session) : Except Fault Active :=
  match s.active with
  | some a => .ok a
  | none => .error .noneActive

def setPhase (s : Session) (p : Phase) : Session := { s with phase := p }

def invokeIn (s : Session) (evaluate : Evaluator) (p : Phase) (name : String) (args : Fields Json)
    (store : State.Store) : Report × State.Store :=
  match s.active with
  | some a => a.invoke evaluate p name args store
  | none => (⟨name, p, "", .failed ⟨.structural, Fault.noneActive.message, []⟩⟩, store)

def invoke (s : Session) (evaluate : Evaluator) (name : String) (args : Fields Json)
    (store : State.Store) : Report × State.Store :=
  s.invokeIn evaluate s.phase name args store

inductive StartFault where
  | noDirectory (dir : String)
  | noDefault (id : String) (cause : Fault)

def StartFault.message : StartFault → String
  | noDirectory dir => "Failed to scan rulesets in " ++ dir ++ ": " ++ Catalog.absent dir
  | noDefault id cause =>
    "Failed to activate default ruleset '" ++ id ++ "': " ++ cause.message

/-- A session with the catalog and the active document that the settings ask for. `listing` gives
the files of a directory. -/
def begin (settings : Settings) (listing : String → Option Listing) (roots : List String) :
    Except StartFault Session := do
  let catalog ← match settings.rulesetsDir with
    | none => .ok none
    | some dir =>
      match listing dir with
      | some files => .ok (some (Catalog.ofListing files))
      | none => .error (.noDirectory dir)
  let s := start catalog
  match settings.defaultRuleset with
  | none => return s
  | some id =>
    match s.activate roots id with
    | (.ok _, s) => return s
    | (.error e, _) => .error (.noDefault id e)

end Session

end Rulebook
