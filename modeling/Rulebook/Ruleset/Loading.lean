import Rulebook.Ruleset.Validation
import Rulebook.Source.JsonText
import Rulebook.Source.YamlText

namespace Rulebook.Ruleset

open Source

inductive Format where
  | json | yaml
deriving DecidableEq, Repr

namespace Format

/-- Text whose first visible character is an opening brace is taken for JSON. -/
def sniff (bytes : ByteArray) : Format :=
  match (byteChars bytes).dropWhile Text.isAsciiBlank with
  | '\x7b' :: _ => json
  | _ => yaml

def fileName? (path : String) : Option String :=
  match ((Text.split '/' path).filter fun s => s != "" && s != ".").getLast? with
  | some ".." => none
  | name => name

def extension? (path : String) : Option String := do
  let reversed := (← fileName? path).toList.reverse
  match reversed.dropWhile (· != '.') with
  | '.' :: _ :: _ => some (String.ofList (reversed.takeWhile (· != '.')).reverse)
  | _ => none

/-- The notation that a file's extension names, or else the one that its text looks like. -/
def forPath (path : String) (bytes : ByteArray) : Format :=
  match extension? path with
  | some "json" => json
  | some "yaml" | some "yml" => yaml
  | _ => sniff bytes

def grammar : Format → Node.Grammar
  | json => JsonText.grammar
  | yaml => YamlText.grammar

def parse? : Format → ByteArray → Option Node
  | json, bytes => JsonText.parse? bytes
  | yaml, bytes => YamlText.parse? bytes

def draft? (f : Format) (bytes : ByteArray) : Option Draft := do
  Draft.read f.grammar (← f.parse? bytes)

def header? (f : Format) (bytes : ByteArray) : Option DraftMetadata := do
  DraftMetadata.readHeader f.grammar (← f.parse? bytes)

end Format

/-- The document that a text in a notation gives, or all violations in it. -/
def loadAs (f : Format) (bytes : ByteArray) : Except (List Violation) Document :=
  match f.draft? bytes with
  | some d => d.validate
  | none => .error [⟨"document", .unreadable⟩]

def load (bytes : ByteArray) : Except (List Violation) Document := loadAs (.sniff bytes) bytes

end Rulebook.Ruleset
