import Rulebook.Ruleset.Document

namespace Rulebook.Call

open Ruleset

inductive ArgumentFault where
  | unknown (name : String)
  | missing (name : String)
  | mistyped (name : String) (expected : ParamType) (found : String)
  | notAllowed (name : String) (allowed : String)
deriving DecidableEq, Repr

def ArgumentFault.message : ArgumentFault → String
  | unknown name => "unknown argument '" ++ name ++ "'"
  | missing name => "missing required argument '" ++ name ++ "'"
  | mistyped name expected found =>
    "argument '" ++ name ++ "' must be a " ++ expected.name ++ ", got " ++ found
  | notAllowed name allowed => "argument '" ++ name ++ "' must be one of " ++ allowed

/-- The argument for a parameter; null counts as none. -/
def given? (p : Parameter) (args : Fields Json) : Option Json :=
  match args.get? p.name with
  | none | some .null => none
  | some v => some v

def Parameter.bind (p : Parameter) (args : Fields Json) : Except ArgumentFault Json :=
  match given? p args with
  | none => if p.required then .error (.missing p.name) else .ok (p.default.getD .null)
  | some v =>
    if !p.type.accepts v then .error (.mistyped p.name p.type v.typeName)
    else match p.allowed with
      | none => .ok v
      | some members =>
        if members.any (State.looselyEqual · v) then .ok v
        else .error (.notAllowed p.name (Json.arr members).print)

def unknownArguments (ps : List Parameter) (args : Fields Json) : List ArgumentFault :=
  (args.names.filter fun n => ps.all (·.name != n)).map .unknown

def bindAll (ps : List Parameter) (args : Fields Json) : List ArgumentFault × Fields Json :=
  ps.foldl (fun (faults, bound) p =>
    match Parameter.bind p args with
    | .ok v => (faults, Fields.insert p.name v bound)
    | .error e => (faults ++ [e], bound)) ([], [])

def bind (ps : List Parameter) (args : Fields Json) : Except (List ArgumentFault) (Fields Json) :=
  let (faults, bound) := bindAll ps args
  let faults := unknownArguments ps args ++ faults
  if faults.isEmpty then .ok bound else .error faults

end Rulebook.Call
