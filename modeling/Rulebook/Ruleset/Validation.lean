import Rulebook.Ruleset.Document
import Rulebook.Ruleset.Draft
import Rulebook.Template

namespace Rulebook.Ruleset

inductive Problem where
  | unreadable
  | blank
  | hasAtSign
  | noVersion
  | unknownPhase (name : String)
  | repeatedPhase (phase : Phase)
  | repeatedFunctionId (id : String)
  | repeatedFunctionName (name phase : String)
  | blankFunctionId
  | functionName (name : String)
  | repeatedParameter (name : String)
  | parameterName (name : String)
  | shadowedRoot (name : String)
  | unknownType (name : String)
  | requiredDefault
  | defaultType (type : ParamType)
  | emptyEnum
  | memberType (type : ParamType)
  | defaultNotMember
  | blankValidation
  | undeclared (placeholder : String)
  | emptyTarget
  | notDotted (target : String)
  | noField (target : String)
  | foreignRoot (root : String)
  | unknownOperation (name : String)
  | unknownRoot (root : String)
deriving DecidableEq, Repr

def stateRoots : List String := ["character", "gameState"]

/-- Names that rules see in any case, so that no parameter may have them. -/
def contextNames : List String := ["character", "gameState", "gameData"]

def maxNameLength : Nat := 64

namespace Problem

def message : Problem → String
  | unreadable => "the text is not a ruleset document"
  | blank => "must not be empty"
  | hasAtSign => "must not contain '@'"
  | noVersion => "must be a non-empty string or number"
  | unknownPhase name => "unknown phase '" ++ name ++ "'"
  | repeatedPhase phase => "phase '" ++ phase.name ++ "' is declared twice"
  | repeatedFunctionId id => "duplicate function id '" ++ id ++ "'"
  | repeatedFunctionName name phase =>
    "duplicate function name '" ++ name ++ "' in phase '" ++ phase ++ "'"
  | blankFunctionId => "function id must not be empty"
  | functionName name =>
    "function name '" ++ name ++ "' must be 1-" ++ toString maxNameLength ++
      " characters of [A-Za-z0-9_-]"
  | repeatedParameter name => "duplicate parameter '" ++ name ++ "'"
  | parameterName name => "parameter name '" ++ name ++ "' is not an identifier"
  | shadowedRoot name => "parameter name '" ++ name ++ "' shadows a context root"
  | unknownType name => "unknown parameter type '" ++ name ++ "'"
  | requiredDefault => "required parameters cannot declare a default"
  | defaultType type => "default does not match declared type " ++ type.name
  | emptyEnum => "enum must not be empty"
  | memberType type => "enum member does not match declared type " ++ type.name
  | defaultNotMember => "default is not one of the enum members"
  | blankValidation => "validation expression must not be empty"
  | undeclared name => "placeholder '\x7b" ++ name ++ "\x7d' does not name a declared parameter"
  | emptyTarget => "effect target must not be empty"
  | notDotted target => "effect target '" ++ target ++ "' is not a dotted path"
  | noField target => "effect target '" ++ target ++ "' must name a field below a root"
  | foreignRoot root =>
    "effect target root '" ++ root ++ "' is not one of " ++ ", ".intercalate stateRoots
  | unknownOperation name => State.Operation.unsupported name
  | unknownRoot root => "state root '" ++ root ++ "' is not known to the state store"

end Problem

structure Violation where
  location : String
  problem : Problem
deriving DecidableEq, Repr

def Violation.message (v : Violation) : String := v.location ++ ": " ++ v.problem.message

def expect (ok : Bool) (location : String) (problem : Problem) : List Violation :=
  if ok then [] else [⟨location, problem⟩]

def item (location name : String) (i : Nat) : String :=
  location ++ "." ++ name ++ "[" ++ toString i ++ "]"

def checkMetadata (m : DraftMetadata) : List Violation :=
  (if Text.blank m.id then [⟨"metadata.id", .blank⟩]
    else expect (!m.id.toList.contains '@') "metadata.id" .hasAtSign) ++
  expect (!Text.blank m.name) "metadata.name" .blank ++
  expect (!Text.blank m.versionText) "metadata.version" .noVersion

def DraftMetadata.checked (m : DraftMetadata) : Metadata :=
  ⟨m.id, m.name, m.versionText, m.tags, m.description⟩

def isFunctionName (s : String) : Bool :=
  !s.isEmpty && s.utf8ByteSize ≤ maxNameLength &&
    s.toList.all fun c => Text.isIdentRest c || c = '-'

def checkMembers (location : String) (type : ParamType) (i : Nat) : List Json → List Violation
  | [] => []
  | v :: vs =>
    expect (type.accepts v) (location ++ ".enum[" ++ toString i ++ "]") (.memberType type) ++
      checkMembers location type (i + 1) vs

def checkTyped (location : String) (p : DraftParameter) (type : ParamType) : List Violation :=
  (match p.default with
    | some v => expect (type.accepts v) (location ++ ".default") (.defaultType type)
    | none => []) ++
  (match p.allowed with
    | some members =>
      expect (!members.isEmpty) (location ++ ".enum") .emptyEnum ++
      checkMembers location type 0 members ++
      (match p.default with
        | some v => expect (members.any (·.same v)) (location ++ ".default") .defaultNotMember
        | none => [])
    | none => [])

def checkParameter (location : String) (p : DraftParameter) : List Violation :=
  expect (Text.isIdent p.name) location (.parameterName p.name) ++
  expect (p.name ∉ contextNames) location (.shadowedRoot p.name) ++
  expect (ParamType.parse? p.type).isSome (location ++ ".type") (.unknownType p.type) ++
  expect (!(p.required && p.default.isSome)) (location ++ ".default") .requiredDefault ++
  (match ParamType.parse? p.type with
    | some type => checkTyped location p type
    | none => [])

/-- A parameter without violations. -/
def DraftParameter.checked? (location : String) (p : DraftParameter) : Option Parameter :=
  if (checkParameter location p).isEmpty then
    (ParamType.parse? p.type).map fun type =>
      ⟨p.name, type, p.required, p.description, p.default, p.allowed⟩
  else none

def checkParameters (location : String) (i : Nat) (seen : List String) :
    List DraftParameter → List Violation
  | [] => []
  | p :: ps =>
    expect (p.name ∉ seen) (item location "parameters" i) (.repeatedParameter p.name) ++
      checkParameter (item location "parameters" i) p ++
      checkParameters location (i + 1) (p.name :: seen) ps

def checkedParameters (location : String) (i : Nat) : List DraftParameter → List Parameter
  | [] => []
  | p :: ps =>
    (p.checked? (item location "parameters" i)).toList ++ checkedParameters location (i + 1) ps

def checkPlaceholders (location : String) (declared names : List String) : List Violation :=
  (names.filter fun n => n ∉ declared && n ∉ Template.reservedRoots).map
    fun n => ⟨location, .undeclared n⟩

def checkValidations (location : String) (declared : List String) (i : Nat) :
    List String → List Violation
  | [] => []
  | s :: ss =>
    expect (!Text.blank s) (item location "ruleValidations" i) .blankValidation ++
      checkPlaceholders (item location "ruleValidations" i) declared (Template.placeholders s) ++
      checkValidations location declared (i + 1) ss

/-- A target has at least two segments, none empty and none with a blank. Its root is one that
effects may write, unless it holds a brace. -/
def checkTarget (location target : String) : List Violation :=
  let segments := Text.split '.' target
  if target.isEmpty then [⟨location, .emptyTarget⟩]
  else if segments.any fun s => s.isEmpty || s.toList.any Text.isBlank then
    [⟨location, .notDotted target⟩]
  else match segments with
    | root :: _ :: _ =>
      expect (root.toList.contains '\x7b' || root ∈ stateRoots) location (.foreignRoot root)
    | _ => [⟨location, .noField target⟩]

def checkEffect (location : String) (declared : List String) (e : DraftEffect) :
    List Violation :=
  checkTarget (location ++ ".target") e.target ++
  checkPlaceholders (location ++ ".target") declared (Template.placeholders e.target) ++
  checkPlaceholders (location ++ ".value") declared (Template.valuePlaceholders e.value) ++
  expect (State.Operation.ofName? e.operation).isSome (location ++ ".operation")
    (.unknownOperation e.operation)

def checkEffects (location : String) (declared : List String) (i : Nat) :
    List DraftEffect → List Violation
  | [] => []
  | e :: es =>
    checkEffect (item location "effects" i) declared e ++
      checkEffects location declared (i + 1) es

def DraftEffect.checked? (e : DraftEffect) : Option EffectSpec :=
  (State.Operation.ofName? e.operation).map fun op => ⟨e.target, op, e.value⟩

def checkFunction (location : String) (f : DraftFunction) : List Violation :=
  let declared := (checkedParameters location 0 f.parameters).map (·.name)
  expect (!Text.blank f.id) location .blankFunctionId ++
  expect (isFunctionName f.name) location (.functionName f.name) ++
  checkParameters location 0 [] f.parameters ++
  checkValidations location declared 0 f.validations ++
  checkEffects location declared 0 f.effects

def DraftFunction.checked? (location : String) (f : DraftFunction) : Option Function :=
  if (checkFunction location f).isEmpty then
    some ⟨f.id, f.name, f.description, checkedParameters location 0 f.parameters, f.validations,
      f.effects.filterMap DraftEffect.checked?⟩
  else none

/-- The functions of a phase. `ids` are those of all functions before, `names` those of the phase.
Empty ones are not compared, for they are reported as such. -/
def checkFunctions (location phase : String) (i : Nat) (ids names : List String) :
    List DraftFunction → List Violation
  | [] => []
  | f :: fs =>
    let here := location ++ "[" ++ toString i ++ "]"
    expect (f.id.isEmpty || f.id ∉ ids) here (.repeatedFunctionId f.id) ++
      expect (f.name.isEmpty || f.name ∉ names) here (.repeatedFunctionName f.name phase) ++
      checkFunction here f ++
      checkFunctions location phase (i + 1) (f.id :: ids) (f.name :: names) fs

def checkedFunctions (location : String) (i : Nat) : List DraftFunction → List Function
  | [] => []
  | f :: fs =>
    (f.checked? (location ++ "[" ++ toString i ++ "]")).toList ++
      checkedFunctions location (i + 1) fs

def phaseLocation (name : String) : String := "functionsByPhase." ++ name

def checkPhases (ids : List String) (seen : List Phase) :
    Fields (List DraftFunction) → List Violation
  | [] => []
  | (name, fs) :: rest =>
    let location := phaseLocation name
    let own := checkFunctions location name 0 ids [] fs
    let ids := fs.map (·.id) ++ ids
    match Phase.parse? name with
    | none => ⟨location, .unknownPhase name⟩ :: own ++ checkPhases ids seen rest
    | some p =>
      own ++ expect (p ∉ seen) location (.repeatedPhase p) ++ checkPhases ids (p :: seen) rest

def checkPrompts (prompts : Fields String) : List Violation :=
  prompts.flatMap fun (name, _) =>
    expect (Phase.parse? name).isSome ("promptTemplates." ++ name) (.unknownPhase name)

/-- The entries of a map whose keys are phases; of two entries for one phase the later stays. -/
def byPhase {α β : Type} (read : String → α → β) (entries : Fields α) : PhaseMap β :=
  entries.foldl (fun m (name, a) =>
    match Phase.parse? name with
    | some p => PhaseMap.insert p (read name a) m
    | none => m) []

def Draft.violations (d : Draft) : List Violation :=
  checkMetadata d.metadata ++ checkPhases [] [] d.functions ++ checkPrompts d.prompts

def Draft.document (d : Draft) : Document where
  metadata := d.metadata.checked
  functions := byPhase (fun name => checkedFunctions (phaseLocation name) 0) d.functions
  gameData := d.gameData
  prompts := byPhase (fun _ s => s) d.prompts

def Draft.validate (d : Draft) : Except (List Violation) Document :=
  if d.violations.isEmpty then .ok d.document else .error d.violations

end Rulebook.Ruleset
