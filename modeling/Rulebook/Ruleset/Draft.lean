import Rulebook.Source.Node
import Rulebook.Json.Printer

namespace Rulebook.Ruleset

open Source

structure DraftMetadata where
  id : String
  name : String
  version : Json
  tags : List String
  description : Option String

structure DraftParameter where
  name : String
  type : String
  required : Bool
  description : String
  default : Option Json
  allowed : Option (List Json)

structure DraftEffect where
  target : String
  operation : String
  value : Json

structure DraftFunction where
  id : String
  name : String
  description : String
  parameters : List DraftParameter
  validations : List String
  effects : List DraftEffect

/-- A document as it is written, before it is checked. Fields that are left out are empty. -/
structure Draft where
  metadata : DraftMetadata
  functions : Fields (List DraftFunction)
  gameData : Fields Json
  prompts : Fields String

def orElse {α : Type} (absent : α) (read : Node → Option α) : Option Node → Option α
  | none => some absent
  | some n => read n

def orNull {α : Type} (read : Node → Option α) : Option Node → Option (Option α)
  | none => some none
  | some n => if n.isNull then some none else (read n).map some

def listOf {α : Type} (read : Node.Grammar → Node → Option α) (g : Node.Grammar) (n : Node) :
    Option (List α) := do
  let (g, items) ← n.list? g
  items.mapM (read g)

def mapOf {α : Type} (read : Node.Grammar → Node → Option α) (g : Node.Grammar) (n : Node) :
    Option (Fields α) := do
  let (g, entries) ← n.map? g
  let entries ← entries.mapM fun (k, v) => (read g v).map (k, ·)
  return Fields.ofList entries

def readText (_ : Node.Grammar) (n : Node) : Option String := n.text?
def readValue (g : Node.Grammar) (n : Node) : Option Json := n.value? g.depth

def DraftMetadata.read (g : Node.Grammar) (n : Node) : Option DraftMetadata := do
  match ← n.record? g ["id", "name", "version", "tags", "description"] with
  | (g, [id, name, version, tags, description]) =>
    return ⟨← orElse "" (readText g) id, ← orElse "" (readText g) name,
      ← orElse .null (readValue g) version,
      ← orElse [] (listOf readText g) tags, ← orNull (readText g) description⟩
  | _ => none

def DraftParameter.read (g : Node.Grammar) (n : Node) : Option DraftParameter := do
  match ← n.record? g ["name", "type", "required", "description", "default", "enum"] with
  | (g, [name, type, required, description, default, allowed]) =>
    return ⟨← orElse "" (readText g) name, ← orElse "" (readText g) type,
      ← orElse false Node.bool? required, ← orElse "" (readText g) description,
      ← orNull (readValue g) default, ← orNull (listOf readValue g) allowed⟩
  | _ => none

def DraftEffect.read (g : Node.Grammar) (n : Node) : Option DraftEffect := do
  match ← n.record? g ["target", "operation", "value"] with
  | (g, [target, operation, v]) =>
    return ⟨← orElse "" (readText g) target, ← orElse "" (readText g) operation,
      ← orElse .null (readValue g) v⟩
  | _ => none

def DraftFunction.read (g : Node.Grammar) (n : Node) : Option DraftFunction := do
  match ← n.record? g
    ["id", "name", "description", "parameters", "ruleValidations", "effects"] with
  | (g, [id, name, description, parameters, validations, effects]) =>
    return ⟨← orElse "" (readText g) id, ← orElse "" (readText g) name,
      ← orElse "" (readText g) description, ← orElse [] (listOf DraftParameter.read g) parameters,
      ← orElse [] (listOf readText g) validations, ← orElse [] (listOf DraftEffect.read g) effects⟩
  | _ => none

/-- The document that a node gives. Only its metadata must be there. -/
def Draft.read (g : Node.Grammar) (n : Node) : Option Draft := do
  match ← n.record? g ["metadata", "functionsByPhase", "gameData", "promptTemplates"] with
  | (g, [metadata, functions, gameData, prompts]) =>
    return ⟨← DraftMetadata.read g (← metadata),
      ← orElse [] (mapOf (listOf DraftFunction.read) g) functions,
      ← orElse [] (mapOf readValue g) gameData, ← orElse [] (mapOf readText g) prompts⟩
  | _ => none

def DraftMetadata.readHeader (g : Node.Grammar) (n : Node) : Option DraftMetadata := do
  match ← n.record? g ["metadata"] with
  | (g, [metadata]) =>
    match ← (← metadata).record? g ["id", "name", "version"] with
    | (g, [id, name, version]) =>
      return ⟨← orElse "" (readText g) id, ← orElse "" (readText g) name,
        ← orElse .null (readValue g) version, [], none⟩
    | _ => none
  | _ => none

/-- A version is a text or a number; anything else is no version. -/
def DraftMetadata.versionText (m : DraftMetadata) : String :=
  match m.version with
  | .str s => s
  | .int _ | .float _ => m.version.print
  | _ => ""

end Rulebook.Ruleset
