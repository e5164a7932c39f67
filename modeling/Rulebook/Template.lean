import Rulebook.Rule.Token
import Rulebook.Json.Printer

namespace Rulebook.Template

/-- Placeholders with these names stand for the names themselves. -/
def reservedRoots : List String := ["character", "gameState"]

inductive Segment where
  | char (c : Char)
  | hole (name : String)
deriving DecidableEq, Repr

def hole? (cs : List Char) : Option (String × List Char) :=
  match cs.takeWhile Text.isIdentRest, cs.dropWhile Text.isIdentRest with
  | c :: name, '\x7d' :: r =>
    if Text.isIdentStart c then some (String.ofList (c :: name), r) else none
  | _, _ => none

theorem hole?_length {cs r : List Char} {name : String} (h : hole? cs = some (name, r)) :
    r.length < cs.length := by
  have hl := congrArg List.length
    (List.takeWhile_append_dropWhile (p := Text.isIdentRest) (l := cs))
  unfold hole? at h
  split at h
  · next he hr =>
    split at h
    · obtain ⟨_, rfl⟩ := Prod.mk.inj (Option.some.inj h)
      rw [List.length_append, he, hr] at hl
      simp only [List.length_cons] at hl
      omega
    · simp at h
  · simp at h

/-- A text cut into its placeholders and the characters between them. -/
def segments : List Char → List Segment
  | [] => []
  | c :: cs =>
    if c = '\x7b' then
      match _ : hole? cs with
      | some (name, r) => .hole name :: segments r
      | none => .char c :: segments cs
    else .char c :: segments cs
termination_by cs => cs.length
decreasing_by
  · exact Nat.lt_succ_of_lt (hole?_length (by assumption))
  · simp
  · simp

def Segment.name? : Segment → Option String
  | char _ => none
  | hole name => some name

def placeholders (s : String) : List String := (segments s.toList).filterMap Segment.name?

mutual

def valuePlaceholders : Json → List String
  | .str s => placeholders s
  | .arr items => itemPlaceholders items
  | .obj members => memberPlaceholders members
  | _ => []

def itemPlaceholders : List Json → List String
  | [] => []
  | v :: vs => valuePlaceholders v ++ itemPlaceholders vs

def memberPlaceholders : List (String × Json) → List String
  | [] => []
  | (_, v) :: ms => valuePlaceholders v ++ memberPlaceholders ms

end

inductive Refusal where
  | closesBracket | breaksComment | notWord
deriving DecidableEq, Repr

def Refusal.message : Refusal → String
  | closesBracket => "contains ']' inside a long-bracket string"
  | breaksComment => "contains a line break inside a comment"
  | notWord => "text outside a quoted literal must be a bare word"

inductive Fault where
  | unresolved (name : String)
  | unsafeArgument (name : String) (refusal : Refusal)
deriving DecidableEq, Repr

def Fault.message : Fault → String
  | unresolved name => "unresolved placeholder '\x7b" ++ name ++ "\x7d'"
  | unsafeArgument name refusal =>
    "argument '" ++ name ++ "' cannot be placed in the rule: " ++ refusal.message

abbrev Bindings := Fields Json

def lookup (bindings : Bindings) (name : String) : Except Fault Json :=
  if name ∈ reservedRoots then .ok (.str name)
  else match bindings.get? name with
    | some v => .ok v
    | none => .error (.unresolved name)

def Segment.fill (bindings : Bindings) : Segment → Except Fault (List Char)
  | char c => .ok [c]
  | hole name => (lookup bindings name).map fun v => v.render.toList

/-- Every placeholder of a text replaced by the form of its value in running text. -/
def substitute (s : String) (bindings : Bindings) : Except Fault String :=
  ((segments s.toList).mapM (Segment.fill bindings)).map fun ps => String.ofList ps.flatten

/-- Where in a rule a character or a placeholder stands. -/
inductive Position where
  | code
  | quoted (quote : Char)
  | longBracket (level : Nat)
  | lineComment
deriving DecidableEq, Repr

def lead : List Segment → List Char
  | .char c :: ss => c :: lead ss
  | _ => []

def bracket? : List Char → Option Nat
  | '[' :: cs => Rule.level? cs
  | _ => none

/-- The position after a character, and how many characters after it belong to the same sign. -/
def Position.next (after : List Char) (c : Char) : Position → Position × Nat
  | code =>
    if c = '\'' || c = '"' then (quoted c, 0)
    else if c = '-' && after.head? = some '-' then
      match bracket? after.tail with
      | some level => (longBracket level, level + 3)
      | none => (lineComment, 1)
    else match bracket? (c :: after) with
      | some level => (longBracket level, level + 1)
      | none => (code, 0)
  | quoted q =>
    if c = '\\' then (quoted q, 1)
    else if c = q || c = '\n' then (code, 0)
    else (quoted q, 0)
  | longBracket level =>
    if (Rule.closer level).isPrefixOf (c :: after) then (code, level + 1)
    else (longBracket level, 0)
  | lineComment => if c = '\n' then (code, 0) else (lineComment, 0)

inductive Part where
  | text (c : Char)
  | hole (name : String) (position : Position)
deriving DecidableEq, Repr

/-- The segments of a rule with the position of each placeholder. `skip` characters are taken
without a look at them; a placeholder is never skipped. -/
def annotate (position : Position) (skip : Nat) : List Segment → List Part
  | [] => []
  | .hole name :: ss => .hole name position :: annotate position 0 ss
  | .char c :: ss =>
    match skip with
    | k + 1 => .text c :: annotate position k ss
    | 0 =>
      let (p, k) := position.next (lead ss) c
      .text c :: annotate p k ss

def parts (s : String) : List Part := annotate .code 0 (segments s.toList)

def escapeChar (quote c : Char) : List Char :=
  if c = '\\' then ['\\', '\\']
  else if c = '\n' then ['\\', 'n']
  else if c = '\r' then ['\\', 'r']
  else if c = '\x00' then ['\\', 'x', '0', '0']
  else if c = quote then ['\\', c]
  else [c]

def escapeQuoted (quote : Char) (cs : List Char) : List Char := cs.flatMap (escapeChar quote)

def isBareWord (s : String) : Bool := !s.isEmpty && s.toList.all Text.isIdentRest

def isNegative : Json → Bool
  | .int n => n < 0
  | .float x => x < 0
  | _ => false

def codeText (v : Json) : Except Refusal (List Char) :=
  match v with
  | .str s => if isBareWord s then .ok s.toList else .error .notWord
  | v => .ok (if isNegative v then '(' :: v.render.toList ++ [')'] else v.render.toList)

/-- The text of a value at a position of a rule. -/
def Position.write (v : Json) : Position → Except Refusal (List Char)
  | code => codeText v
  | quoted q => .ok (escapeQuoted q v.render.toList)
  | longBracket _ =>
    if v.render.toList.contains ']' then .error .closesBracket else .ok v.render.toList
  | lineComment =>
    if v.render.toList.any fun c => c = '\n' || c = '\r' then .error .breaksComment
    else .ok v.render.toList

def Part.fill (bindings : Bindings) : Part → Except Fault (List Char)
  | text c => .ok [c]
  | hole name position =>
    if name ∈ reservedRoots then .ok name.toList
    else match bindings.get? name with
      | none => .error (.unresolved name)
      | some v =>
        match position.write v with
        | .ok cs => .ok cs
        | .error refusal => .error (.unsafeArgument name refusal)

/-- Every placeholder of a rule replaced by its value, written for the placeholder's position. -/
def substituteRule (s : String) (bindings : Bindings) : Except Fault String :=
  ((parts s).mapM (Part.fill bindings)).map fun ps => String.ofList ps.flatten

/-- The name of the placeholder that is the whole text. -/
def sole? (s : String) : Option String :=
  match segments s.toList with
  | [.hole name] => some name
  | _ => none

mutual

/-- A value with its placeholders resolved. -/
def resolve (bindings : Bindings) : Json → Except Fault Json
  | .str s =>
    match sole? s with
    | some name => lookup bindings name
    | none => (substitute s bindings).map .str
  | .arr items => (resolveItems bindings items).map .arr
  | .obj members => (resolveMembers bindings members).map .obj
  | v => .ok v

def resolveItems (bindings : Bindings) : List Json → Except Fault (List Json)
  | [] => .ok []
  | v :: vs => do
    let v ← resolve bindings v
    let vs ← resolveItems bindings vs
    return v :: vs

def resolveMembers (bindings : Bindings) :
    List (String × Json) → Except Fault (List (String × Json))
  | [] => .ok []
  | (k, v) :: ms => do
    let v ← resolve bindings v
    let ms ← resolveMembers bindings ms
    return (k, v) :: ms

end

end Rulebook.Template
