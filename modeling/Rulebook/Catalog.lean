import Rulebook.Ruleset.Loading
import Rulebook.Ruleset.Version

namespace Rulebook

open Ruleset

/-- The files below a directory, by their paths from there. -/
abbrev Listing := List (String × ByteArray)

namespace Catalog

/-- A ruleset file with its contents when the directory was listed. They are not read again. -/
structure Entry where
  id : DocumentId
  name : String
  path : String
  source : ByteArray

def Entry.format (e : Entry) : Format := .forPath e.path e.source

def Entry.load (e : Entry) : Except (List Violation) Document := loadAs e.format e.source

def endings : List String := [".json", ".yaml", ".yml"]

def isCandidate (path : String) : Bool :=
  match Format.fileName? path with
  | some name => endings.any fun e => e.toList.isSuffixOf name.toList
  | none => false

def entryOf? (path : String) (source : ByteArray) : Option Entry := do
  let m ← (Format.forPath path source).header? source
  if m.id.isEmpty || m.versionText.isEmpty || m.id.toList.contains '@' then none
  else return ⟨.of m.id m.versionText, m.name, path, source⟩

/-- The order of a walk in which each directory is visited by name. -/
def walksBefore : List String → List String → Bool
  | [], _ => true
  | _ :: _, [] => false
  | a :: as, b :: bs => if a = b then walksBefore as bs else a < b

def inWalkOrder (files : Listing) : Listing :=
  files.mergeSort fun a b => walksBefore (Text.split '/' a.1) (Text.split '/' b.1)

/-- The entries of files in a given order. Of two for one document the first stays. -/
def collect (files : Listing) : Fields Entry :=
  (files.filter (isCandidate ·.1)).foldl (fun entries (path, source) =>
    match entryOf? path source with
    | some e =>
      if Fields.has entries e.id.text then entries else Fields.insert e.id.text e entries
    | none => entries) []

end Catalog

structure Catalog where
  entries : Fields Catalog.Entry

namespace Catalog

def ofListing (files : Listing) : Catalog := ⟨collect (inWalkOrder files)⟩

def absent (dir : String) : String := "Ruleset directory does not exist: " ++ dir

/-- Of two entries the one with the higher version, of equal ones the later. -/
def newer (a b : Entry) : Entry :=
  if Version.compare a.id.version b.id.version = .gt then a else b

def newest? : List Entry → Option Entry
  | [] => none
  | e :: es => some (es.foldl newer e)

/-- The entry that an id with a version names, or the newest with a name. -/
def find? (c : Catalog) (id : String) : Option Entry :=
  match (DocumentId.parse? id).bind fun full => Fields.get? c.entries full.text with
  | some e => some e
  | none => newest? ((c.entries.map Prod.snd).filter fun e => e.id.name == id)

end Catalog

end Rulebook
