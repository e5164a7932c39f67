import Rulebook.Ruleset.Document

namespace Rulebook.Call

open Ruleset

structure Schema where
  name : String
  description : String
  parameters : Json

def propertyOf (p : Parameter) : Json :=
  .obj (Fields.ofList ([("type", .str p.type.name)] ++
    (if p.description.isEmpty then [] else [("description", .str p.description)]) ++
    optional "enum" .arr p.allowed ++ optional "default" id p.default))

def Schema.of (f : Function) : Schema where
  name := f.name
  description := f.description
  parameters := .obj [("additionalProperties", .bool false),
    ("properties", .obj (Fields.ofList (f.parameters.map fun p => (p.name, propertyOf p)))),
    ("required", strings ((f.parameters.filter (·.required)).map (·.name))),
    ("type", .str "object")]

def Schema.toJson (s : Schema) : Json :=
  .obj [("name", .str s.name), ("description", .str s.description), ("parameters", s.parameters)]

end Rulebook.Call
