import Rulebook.Ruleset.Phase
import Rulebook.State.Path
import Rulebook.Json.Printer
import Rulebook.Digest

namespace Rulebook.Ruleset

inductive ParamType where
  | string | number | boolean | object | array
deriving DecidableEq, Repr

namespace ParamType

def all : List ParamType := [string, number, boolean, object, array]

def name : ParamType → String
  | string => "string"
  | number => "number"
  | boolean => "boolean"
  | object => "object"
  | array => "array"

/-- Capitals count as small letters, and two names have a second form. -/
def parse? (s : String) : Option ParamType :=
  match Text.asciiLower s with
  | "string" => some string
  | "number" | "integer" => some number
  | "boolean" | "bool" => some boolean
  | "object" => some object
  | "array" => some array
  | _ => none

def accepts (t : ParamType) (v : Json) : Bool :=
  match t, v with
  | string, .str _ | number, .int _ | number, .float _ | boolean, .bool _ | object, .obj _
  | array, .arr _ => true
  | _, _ => false

end ParamType

structure DocumentId where
  text : String
deriving DecidableEq, Repr

namespace DocumentId

def of (name version : String) : DocumentId := ⟨name ++ "@" ++ version⟩

/-- What comes before the first at sign. -/
def name (id : DocumentId) : String := String.ofList (id.text.toList.takeWhile (· != '@'))

def version (id : DocumentId) : String := String.ofList (id.text.toList.dropWhile (· != '@')).tail

def parse? (s : String) : Option DocumentId :=
  let id : DocumentId := ⟨s⟩
  if id.name.isEmpty || id.version.isEmpty then none else some (of id.name id.version)

def malformed (s : String) : String := "document id '" ++ s ++ "' is not of the form id@version"

end DocumentId

structure Metadata where
  id : String
  name : String
  version : String
  tags : List String
  description : Option String

structure Parameter where
  name : String
  type : ParamType
  required : Bool
  description : String
  default : Option Json
  allowed : Option (List Json)

structure EffectSpec where
  target : String
  operation : State.Operation
  value : Json

structure Function where
  id : String
  name : String
  description : String
  parameters : List Parameter
  validations : List String
  effects : List EffectSpec

structure Document where
  metadata : Metadata
  functions : PhaseMap (List Function)
  gameData : Fields Json
  prompts : PhaseMap String

def optional {α : Type} (name : String) (encode : α → Json) : Option α → List (String × Json)
  | none => []
  | some a => [(name, encode a)]

def strings (ss : List String) : Json := .arr (ss.map .str)

def Metadata.toJson (m : Metadata) : Json :=
  .obj ([("id", .str m.id), ("name", .str m.name), ("version", .str m.version),
    ("tags", strings m.tags)] ++ optional "description" .str m.description)

def Parameter.toJson (p : Parameter) : Json :=
  .obj ([("name", .str p.name), ("type", .str p.type.name), ("required", .bool p.required),
    ("description", .str p.description)] ++ optional "default" id p.default ++
    optional "enum" .arr p.allowed)

def EffectSpec.toJson (e : EffectSpec) : Json :=
  .obj [("target", .str e.target), ("operation", .str e.operation.name), ("value", e.value)]

def Function.toJson (f : Function) : Json :=
  .obj [("id", .str f.id), ("name", .str f.name), ("description", .str f.description),
    ("parameters", .arr (f.parameters.map Parameter.toJson)),
    ("ruleValidations", strings f.validations),
    ("effects", .arr (f.effects.map EffectSpec.toJson))]

namespace Document

def id (d : Document) : DocumentId := .of d.metadata.id d.metadata.version

def phases (d : Document) : List Phase := d.functions.phases

def functionsOf (d : Document) (p : Phase) : List Function := (d.functions.get? p).getD []

def functionCount (d : Document) : Nat :=
  d.functions.foldl (fun n f => n + f.2.length) 0

def prompt? (d : Document) (p : Phase) : Option String := d.prompts.get? p

/-- The document with its fields in the order of their declaration. -/
def toJson (d : Document) : Json :=
  .obj [("metadata", d.metadata.toJson),
    ("functionsByPhase",
      .obj (d.functions.map fun (p, fs) => (p.name, .arr (fs.map Function.toJson)))),
    ("gameData", .obj d.gameData),
    ("promptTemplates", .obj (d.prompts.map fun (p, s) => (p.name, .str s)))]

/-- The digest of the document's form on one line. -/
def fingerprint (d : Document) : String := Digest.sha256 d.toJson.print.toUTF8

end Document

end Rulebook.Ruleset
